import Glip.Foundation.MachineInteger
import Mathlib.Tactic.Ring

/-! The timeout of `read_blocking` and `write_blocking`. -/
namespace Glip.Uart
open Foundation

structure Timeval where
  tvSec : Int
  tvUsec : Int

inductive SysError where
  | eagain
  | other

inductive BlockingRc where
  | ok
  | failed
  | etimedout
  deriving DecidableEq

/-- What the terminal does at an attempt, and the clock at the check that follows it. -/
structure Attempt (ρ : Type) where
  result : ρ
  clock : Timeval

/-- The system call of a blocking function: what it transfers once `done` has been transferred. It never transfers
more than it was asked for. -/
structure SysCall (ρ : Type) where
  size : Nat
  transfer : ρ → List UInt8 → Except SysError (List UInt8)
  fits : ∀ r done bs, done.length ≤ size → transfer r done = .ok bs → done.length + bs.length ≤ size

structure BlockingEnd where
  ret : Option BlockingRc
  transferred : List UInt8
  made : Nat

def maxRwCount : Nat := 0x7ffff000

def checkTimeout (start current : Timeval) (ms : Nat) : Bool :=
  let sec := signedOf 64 (current.tvSec - start.tvSec)
  let usec := signedOf 64 (current.tvUsec - start.tvUsec)
  let diff := if current.tvUsec < start.tvUsec then (signedOf 64 (sec + 1), signedOf 64 (usec + 1000000))
    else (sec, usec)
  signedOf 64 (signedOf 64 (diff.1 * 1000000) + diff.2) > signedOf 32 (signedOf 32 ms * 1000)

namespace SysCall
variable {ρ : Type} (io : SysCall ρ)

def after (a : Attempt ρ) (done : List UInt8) : List UInt8 :=
  match io.transfer a.result done with
  | .ok bs => done ++ bs
  | .error _ => done

def fails (a : Attempt ρ) (done : List UInt8) : Bool :=
  match io.transfer a.result done with
  | .error .other => true
  | _ => false

/-- The loop of both functions. It has not ended where the attempts end. -/
def loop (timeout : Nat) (start : Timeval) : List (Attempt ρ) → List UInt8 → BlockingEnd
  | [], done => ⟨none, done, 0⟩
  | a :: as, done =>
    let next := io.after a done
    if io.fails a done then ⟨some .failed, next, 1⟩
    else if timeout > 0 ∧ checkTimeout start a.clock timeout then ⟨some .etimedout, next, 1⟩
    else if next.length ≠ io.size then
      let o := loop timeout start as next
      { o with made := o.made + 1 }
    else ⟨some .ok, next, 1⟩

end SysCall

def readCall (size : Nat) : SysCall (Except SysError (List UInt8)) where
  size := size
  transfer r done := r.map (List.take (min (size - done.length) maxRwCount))
  fits r done bs hle h := by
    cases r with
    | error e => cases h
    | ok offered =>
      obtain rfl := Except.ok.inj h
      rw [List.length_take]
      omega

def writeCall (data : List UInt8) : SysCall (Except SysError Nat) where
  size := data.length
  transfer r done := r.map fun room => (data.drop done.length).take (min room maxRwCount)
  fits r done bs hle h := by
    cases r with
    | error e => cases h
    | ok room =>
      obtain rfl := Except.ok.inj h
      rw [List.length_take, List.length_drop]
      omega

def readBlocking (size timeout : Nat) (start : Timeval) (attempts : List (Attempt (Except SysError (List UInt8)))) :
    BlockingEnd :=
  (readCall size).loop timeout start attempts []

def writeBlocking (data : List UInt8) (timeout : Nat) (start : Timeval)
    (attempts : List (Attempt (Except SysError Nat))) : BlockingEnd :=
  (writeCall data).loop timeout start attempts []

def elapsed (start t : Timeval) : Int := (t.tvSec - start.tvSec) * 1000000 + (t.tvUsec - start.tvUsec)

/-- A call that keeps its timeout. After the attempts before its last one, and after all of them if it has not
ended, no more than the timeout has passed. -/
structure KeepsTimeout {ρ : Type} (size timeout : Nat) (start : Timeval) (attempts : List (Attempt ρ))
    (o : BlockingEnd) : Prop where
  ok_iff : ∀ rc, o.ret = some rc → (rc = .ok ↔ o.transferred.length = size)
  timed_out : o.ret = some .etimedout → o.transferred.length < size ∧
    ∃ a, attempts[o.made - 1]? = some a ∧ timeout * 1000 < elapsed start a.clock
  stops : ∀ i a, attempts[i]? = some a → i + 1 < o.made ∨ i < o.made ∧ o.ret = none →
    elapsed start a.clock ≤ timeout * 1000

/-- What the check takes for the time that has passed: a borrow adds a second and its microseconds. -/
def measured (start t : Timeval) : Int := elapsed start t + if t.tvUsec < start.tvUsec then 2000000 else 0

def limit (timeout : Nat) : Int := signedOf 32 (timeout * 1000)

/-- Up to the attempt after which more than the timeout has passed, what the check takes for the time is within
the limit, also at the attempt that completes the request; and it is not at that attempt, if bytes are missing. No
attempt fails when nothing is missing. -/
def Punctual {ρ : Type} (io : SysCall ρ) (timeout : Nat) (start : Timeval) : List (Attempt ρ) → List UInt8 → Prop
  | [], _ => True
  | a :: as, done =>
    if io.fails a done then done.length < io.size
    else if (io.after a done).length = io.size then signedOf 64 (measured start a.clock) ≤ limit timeout
    else timeout * 1000 < elapsed start a.clock ∧ limit timeout < signedOf 64 (measured start a.clock) ∨
      measured start a.clock ≤ limit timeout ∧ Punctual io timeout start as (io.after a done)

section Clock
variable {start t : Timeval} {timeout : Nat}

theorem limit_le (timeout : Nat) : limit timeout ≤ timeout * 1000 ∧ limit timeout < 2 ^ 31 := by
  have hdef := Int.bmod_def ((timeout : Int) * 1000) (2 ^ 32)
  unfold limit signedOf
  omega

theorem measured_bounds (start t : Timeval) :
    elapsed start t ≤ measured start t ∧ measured start t ≤ elapsed start t + 2000000 := by
  unfold measured
  split <;> omega

theorem checkTimeout_iff : checkTimeout start t timeout ↔ limit timeout < signedOf 64 (measured start t) := by
  have hlimit : signedOf 32 (signedOf 32 timeout * 1000) = limit timeout := Int.bmod_mul_bmod
  unfold checkTimeout
  rw [hlimit, decide_eq_true_iff, gt_iff_lt]
  unfold measured elapsed signedOf
  split <;> simp only [Int.bmod_add_bmod, Int.bmod_mul_bmod, Int.add_bmod_bmod] <;> ring_nf

/-- While no more than the timeout has passed, the check is not wrapped around. -/
theorem in_time_iff (htimeout : timeout < 2 ^ 32) (hclock : 0 ≤ elapsed start t) :
    elapsed start t ≤ timeout * 1000 ∧ ¬limit timeout < signedOf 64 (measured start t) ↔
      measured start t ≤ limit timeout := by
  have hlimit := limit_le timeout
  have hbounds := measured_bounds start t
  by_cases hlate : elapsed start t ≤ timeout * 1000
  · rw [signedOf_eq (by omega) (by omega)]
    omega
  · omega

end Clock

section Loop
variable {ρ : Type} {io : SysCall ρ} {timeout size : Nat} {start : Timeval} {a : Attempt ρ} {as : List (Attempt ρ)}
  {done : List UInt8} {rc : BlockingRc} {o : BlockingEnd}

/-- A call that ends at its first attempt. -/
theorem keepsTimeout_end : KeepsTimeout size timeout start (a :: as) ⟨some rc, done, 1⟩ ↔
    (rc = .ok ↔ done.length = size) ∧
      (rc = .etimedout → done.length < size ∧ timeout * 1000 < elapsed start a.clock) := by
  constructor
  · intro h
    refine ⟨h.ok_iff rc rfl, fun hrc => ?_⟩
    obtain ⟨hlt, a', ha', hlate⟩ := h.timed_out (congrArg some hrc)
    obtain rfl : a = a' := Option.some.inj ha'
    exact ⟨hlt, hlate⟩
  · rintro ⟨hok, hlate⟩
    refine ⟨?_, fun h => ?_, fun i a' _ hi => ?_⟩
    · rintro _ ⟨⟩
      exact hok
    · obtain ⟨hlt, hlate⟩ := hlate (Option.some.inj h)
      exact ⟨hlt, a, rfl, hlate⟩
    · rcases hi with hi | ⟨-, hret⟩
      · exact absurd hi (by simp)
      · cases hret

/-- A call that goes on after its first attempt. -/
theorem keepsTimeout_cons (hmade : o.ret ≠ none → 0 < o.made) :
    KeepsTimeout size timeout start (a :: as) { o with made := o.made + 1 } ↔
      elapsed start a.clock ≤ timeout * 1000 ∧ KeepsTimeout size timeout start as o := by
  have hshift (hret : o.ret = some .etimedout) : (a :: as)[o.made + 1 - 1]? = as[o.made - 1]? := by
    have hpos := hmade (by rw [hret]; exact nofun)
    rw [show o.made + 1 - 1 = o.made - 1 + 1 by omega, List.getElem?_cons_succ]
  constructor
  · intro h
    refine ⟨h.stops 0 a rfl ?_, h.ok_iff, fun hret => ?_, fun i a' ha' hi => h.stops (i + 1) a' ha' ?_⟩
    · by_cases hret : o.ret = none
      · exact .inr ⟨Nat.succ_pos _, hret⟩
      · exact .inl (Nat.succ_lt_succ (hmade hret))
    · obtain ⟨hlt, a', ha', hlate⟩ := h.timed_out hret
      exact ⟨hlt, a', (hshift hret).symm.trans ha', hlate⟩
    · exact hi.imp Nat.succ_lt_succ (And.imp_left Nat.succ_lt_succ)
  · rintro ⟨hfirst, h⟩
    refine ⟨h.ok_iff, fun hret => ?_, fun i a' ha' hi => ?_⟩
    · obtain ⟨hlt, a', ha', hlate⟩ := h.timed_out hret
      exact ⟨hlt, a', (hshift hret).trans ha', hlate⟩
    · cases i with
      | zero =>
        obtain rfl : a = a' := Option.some.inj ha'
        exact hfirst
      | succ i =>
        exact h.stops i a' ha' (hi.imp Nat.lt_of_succ_lt_succ (And.imp_left Nat.lt_of_succ_lt_succ))

theorem SysCall.loop_made : (io.loop timeout start as done).ret ≠ none → 0 < (io.loop timeout start as done).made := by
  intro h
  cases as with
  | nil => exact absurd rfl h
  | cons a as =>
    simp only [SysCall.loop]
    split_ifs <;> exact Nat.succ_pos _

theorem SysCall.after_le (hdone : done.length ≤ io.size) : (io.after a done).length ≤ io.size := by
  unfold SysCall.after
  split
  · rename_i bs h
    rw [List.length_append]
    exact io.fits _ _ _ hdone h
  · exact hdone

theorem SysCall.after_of_fails (h : io.fails a done) : io.after a done = done := by
  unfold SysCall.fails at h
  unfold SysCall.after
  split at h
  · rename_i hr
    rw [hr]
  · simp at h

theorem SysCall.loop_keepsTimeout_iff (io : SysCall ρ) (hpos : 0 < timeout) (htimeout : timeout < 2 ^ 32)
    (hclock : ∀ a ∈ as, 0 ≤ elapsed start a.clock) (hdone : done.length ≤ io.size) :
    KeepsTimeout io.size timeout start as (io.loop timeout start as done) ↔ Punctual io timeout start as done := by
  induction as generalizing done with
  | nil => exact iff_of_true ⟨nofun, nofun, nofun⟩ trivial
  | cons a as ih =>
    have hnext := SysCall.after_le (a := a) hdone
    have hintime := in_time_iff htimeout (hclock a List.mem_cons_self)
    simp only [SysCall.loop, Punctual]
    by_cases hfail : io.fails a done
    · rw [if_pos hfail, if_pos hfail, keepsTimeout_end, SysCall.after_of_fails hfail]
      simp
      omega
    · rw [if_neg hfail, if_neg hfail]
      by_cases hall : (io.after a done).length = io.size
      · rw [if_pos hall, ← Int.not_lt, ← checkTimeout_iff]
        by_cases hcheck : checkTimeout start a.clock timeout
        · simp [hpos, hcheck, keepsTimeout_end, hall]
        · simp [hcheck, keepsTimeout_end, hall]
      · have hmissing : (io.after a done).length < io.size := Nat.lt_of_le_of_ne hnext hall
        rw [if_neg hall, ← hintime]
        by_cases hcheck : checkTimeout start a.clock timeout
        · rw [if_pos ⟨hpos, hcheck⟩, keepsTimeout_end]
          simp [checkTimeout_iff.mp hcheck, hall, hmissing]
        · have hlimit := mt checkTimeout_iff.mpr hcheck
          rw [if_neg (fun h => hcheck h.2), if_pos hall, keepsTimeout_cons SysCall.loop_made,
            ih (fun a h => hclock a (List.mem_cons_of_mem _ h)) hnext]
          simp [hlimit]

end Loop

/-- Both functions keep their timeout exactly if the attempts are punctual in what the check measures. -/
theorem blocking_timeout_iff (size : Nat) (data : List UInt8) (timeout : Nat) (hpos : 0 < timeout)
    (htimeout : timeout < 2 ^ 32) (start : Timeval) (reads : List (Attempt (Except SysError (List UInt8))))
    (hreads : ∀ a ∈ reads, 0 ≤ elapsed start a.clock) (writes : List (Attempt (Except SysError Nat)))
    (hwrites : ∀ a ∈ writes, 0 ≤ elapsed start a.clock) :
    (KeepsTimeout size timeout start reads (readBlocking size timeout start reads) ↔
        Punctual (readCall size) timeout start reads []) ∧
      (KeepsTimeout data.length timeout start writes (writeBlocking data timeout start writes) ↔
        Punctual (writeCall data) timeout start writes []) :=
  ⟨SysCall.loop_keepsTimeout_iff (readCall size) hpos htimeout hreads (Nat.zero_le _),
    SysCall.loop_keepsTimeout_iff (writeCall data) hpos htimeout hwrites (Nat.zero_le _)⟩

theorem blocking_timeout_iff_second :
    let start : Timeval := ⟨5, 0⟩
    let reads : List (Attempt (Except SysError (List UInt8))) := [⟨.error .eagain, ⟨5, 400⟩⟩, ⟨.ok [0xfe, 1], ⟨5, 900⟩⟩]
    let writes : List (Attempt (Except SysError Nat)) := [⟨.ok 7, ⟨6, 0⟩⟩]
    KeepsTimeout 2 1000 start reads (readBlocking 2 1000 start reads) ∧
      KeepsTimeout 1 1000 start writes (writeBlocking [3] 1000 start writes) := by
  intro start reads writes
  obtain ⟨hread, hwrite⟩ := blocking_timeout_iff 2 [3] 1000 (by decide) (by decide) start reads (by decide) writes
    (by decide)
  exact ⟨hread.mpr (.inr ⟨by decide, show signedOf 64 (measured start ⟨5, 900⟩) ≤ limit 1000 by decide⟩),
    hwrite.mpr (show signedOf 64 (measured start ⟨6, 0⟩) ≤ limit 1000 by decide)⟩

/-- A read that starts late in a second takes its first attempt after 0.2 s for one after 2.2 s. Another read gets
its bytes after 1.1 s and returns that it has timed out. -/
theorem blocking_timeout_fails :
    let early : List (Attempt (Except SysError (List UInt8))) := [⟨.error .eagain, ⟨6, 100000⟩⟩]
    let complete : List (Attempt (Except SysError (List UInt8))) := [⟨.ok [0xfe, 1], ⟨6, 100000⟩⟩]
    readBlocking 2 1000 ⟨5, 900000⟩ early = ⟨some .etimedout, [], 1⟩ ∧
      ¬KeepsTimeout 2 1000 ⟨5, 900000⟩ early (readBlocking 2 1000 ⟨5, 900000⟩ early) ∧
      readBlocking 2 1000 ⟨5, 0⟩ complete = ⟨some .etimedout, [0xfe, 1], 1⟩ ∧
      ¬KeepsTimeout 2 1000 ⟨5, 0⟩ complete (readBlocking 2 1000 ⟨5, 0⟩ complete) := by
  intro early complete
  refine ⟨rfl, fun h => ?_, rfl, fun h => ?_⟩
  · obtain ⟨-, a, ha, hlate⟩ := h.timed_out rfl
    obtain rfl := Option.some.inj ha
    exact absurd hlate (by decide)
  · exact absurd (h.timed_out rfl).1 (by decide)

end Glip.Uart
