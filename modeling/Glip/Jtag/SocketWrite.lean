import Glip.Foundation.MachineInteger

/-! write_b of backend_jtag.c, which calls write() until the whole buffer is out. -/
namespace Glip.Jtag
open Foundation

inductive WriteResult where
  | count (n : Nat)
  | eagain
  | error
  deriving DecidableEq

def WriteResult.rv : WriteResult → Int
  | count n => n
  | eagain => -1
  | error => -1

/-- The requests of a call as offset and length, the bytes that were accepted, and the
value returned, unless the results run out before. -/
structure WriteCall where
  requests : List (Nat × Nat)
  accepted : List (BitVec 8)
  ret : Option Int
  deriving DecidableEq

def nbyteWritten (written : Nat) (r : WriteResult) : Nat := unsignedOf 64 (written + r.rv)

def writeBLoop (buf : List (BitVec 8)) (written : Nat) : List WriteResult → WriteCall
  | [] => ⟨[(written, sizeSub buf.length written)], [], none⟩
  | r :: results =>
    let request := (written, sizeSub buf.length written)
    let accepted := (buf.drop written).take r.rv.toNat
    if r = .error then ⟨[request], accepted, some (-1)⟩
    else if nbyteWritten written r < buf.length then
      let call := writeBLoop buf (nbyteWritten written r) results
      ⟨request :: call.requests, accepted ++ call.accepted, call.ret⟩
    else ⟨[request], accepted, some (signedOf 64 (nbyteWritten written r))⟩

def writeB (buf : List (BitVec 8)) (results : List WriteResult) : WriteCall := writeBLoop buf 0 results

def wholeCall (nbyte written : Nat) : List WriteResult → Bool
  | [] => false
  | .error :: results => results.isEmpty
  | r :: results =>
    (match r with
      | .count n => decide (1 ≤ n ∧ n ≤ sizeSub nbyte written)
      | _ => true) &&
    if nbyteWritten written r < nbyte then wholeCall nbyte (nbyteWritten written r) results else results.isEmpty

/-- Each byte is sent once and in order by a call that says so, failure is reported only
after an error, and nothing outside the buffer is asked for. -/
structure SentOnce (buf : List (BitVec 8)) (results : List WriteResult) : Prop where
  accepted : (writeB buf results).ret = some (buf.length : Int) → (writeB buf results).accepted = buf
  failed : (writeB buf results).ret = some (-1) → .error ∈ results
  inside : ∀ request ∈ (writeB buf results).requests, request.1 + request.2 ≤ buf.length

section Loop
variable {buf : List (BitVec 8)} {written : Nat} (hbuf : buf.length < 2 ^ 63)
include hbuf

/-- The loop goes on only below the length, whatever was added. -/
theorem writeBLoop_inside (results : List WriteResult) (hw : written < buf.length) :
    ∀ request ∈ (writeBLoop buf written results).requests, request.1 + request.2 = buf.length := by
  have hfirst : written + sizeSub buf.length written = buf.length := by
    rw [sizeSub_eq hw.le (by omega)]
    omega
  induction results generalizing written with
  | nil => simpa [writeBLoop] using hfirst
  | cons r results ih =>
    rw [writeBLoop]
    split
    · simpa using hfirst
    · split
      · rename_i hnext
        have hrest : nbyteWritten written r + sizeSub buf.length (nbyteWritten written r) = buf.length := by
          rw [sizeSub_eq hnext.le (by omega)]
          omega
        rintro request (_ | ⟨_, hmem⟩)
        · exact hfirst
        · exact ih hnext hrest request hmem
      · simpa using hfirst

theorem nbyteWritten_count {n : Nat} (hw : written ≤ buf.length) (hn : n ≤ sizeSub buf.length written) :
    nbyteWritten written (.count n) = written + n ∧ written + n ≤ buf.length := by
  rw [sizeSub_eq hw (by omega)] at hn
  exact ⟨unsignedOf_eq (by omega), by omega⟩

end Loop

/-- The last byte that was accepted is asked for again. -/
theorem nbyteWritten_eagain {written : Nat} (h : 0 < written) (hw : written < 2 ^ 64) :
    nbyteWritten written .eagain = written - 1 := by
  rw [nbyteWritten, WriteResult.rv, show (written : Int) + -1 = ((written - 1 : Nat) : Int) by omega]
  exact unsignedOf_eq (by omega)

theorem nbyteWritten_eagain_zero : nbyteWritten 0 .eagain = 2 ^ 64 - 1 := rfl

inductive CallEnd (buf : List (BitVec 8)) (written : Nat) (results : List WriteResult) (call : WriteCall) : Prop
  | error (last : results.getLast? = some .error) (ret : call.ret = some (-1))
  /-- The counter has wrapped below zero. -/
  | wrapped (noError : .error ∉ results) (eagain : .eagain ∈ results) (ret : call.ret = some (-1))
  | written (noError : .error ∉ results) (ret : call.ret = some (buf.length : Int))
      (length : written + call.accepted.length = buf.length + results.count .eagain)
      (accepted : .eagain ∉ results → call.accepted = buf.drop written)

variable {buf : List (BitVec 8)} {written : Nat} {results : List WriteResult}

theorem CallEnd.cons {r : WriteResult} {requests : List (Nat × Nat)} {call : WriteCall}
    (h : CallEnd buf (nbyteWritten written r) results call) (hr : r ≠ .error)
    (hstep : nbyteWritten written r + (if r = .eagain then 1 else 0) = written + ((buf.drop written).take r.rv.toNat).length)
    (hdrop : r ≠ .eagain →
      (buf.drop written).take r.rv.toNat ++ buf.drop (nbyteWritten written r) = buf.drop written) :
    CallEnd buf written (r :: results)
      ⟨requests, (buf.drop written).take r.rv.toNat ++ call.accepted, call.ret⟩ := by
  cases h with
  | error last ret => exact .error (by rw [List.getLast?_cons, last]; rfl) ret
  | wrapped noError eagain ret => exact .wrapped (by simp [Ne.symm hr, noError]) (.tail r eagain) ret
  | written noError ret length accepted =>
    refine .written (by simp [Ne.symm hr, noError]) ret ?_ ?_
    · rw [List.length_append, List.count_cons]
      simp only [beq_iff_eq]
      omega
    · intro hmem
      rw [List.mem_cons, not_or] at hmem
      rw [accepted hmem.2]
      exact hdrop (Ne.symm hmem.1)

theorem writeBLoop_end (hbuf : buf.length < 2 ^ 63) (results : List WriteResult) (hw : written < buf.length)
    (hcall : wholeCall buf.length written results = true) :
    CallEnd buf written results (writeBLoop buf written results) := by
  induction results generalizing written with
  | nil => cases hcall
  | cons r results ih =>
    cases r with
    | error =>
      cases List.isEmpty_iff.mp hcall
      exact .error rfl rfl
    | eagain =>
      simp only [wholeCall, Bool.true_and] at hcall
      rw [writeBLoop, if_neg (by decide)]
      rcases Nat.eq_zero_or_pos written with rfl | hpos
      · have hover : ¬nbyteWritten 0 .eagain < buf.length := by
          rw [nbyteWritten_eagain_zero]
          omega
        rw [if_neg hover] at hcall ⊢
        cases List.isEmpty_iff.mp hcall
        exact .wrapped (by simp) (by simp) rfl
      · have hback := nbyteWritten_eagain hpos (by omega)
        have hnext : nbyteWritten written .eagain < buf.length := by omega
        rw [if_pos hnext] at hcall ⊢
        refine CallEnd.cons (ih hnext hcall) (by decide) ?_ (fun h => absurd rfl h)
        simp [WriteResult.rv, hback]
        omega
    | count n =>
      simp only [wholeCall, Bool.and_eq_true, decide_eq_true_eq] at hcall
      obtain ⟨⟨hpos, hn⟩, hcall⟩ := hcall
      obtain ⟨hadd, hle⟩ := nbyteWritten_count hbuf hw.le hn
      have htaken : ((buf.drop written).take n).length = n := by
        rw [List.length_take, List.length_drop]
        omega
      rw [writeBLoop, if_neg (by simp)]
      split at hcall
      · rename_i hnext
        rw [if_pos hnext]
        refine CallEnd.cons (ih hnext hcall) (by simp) ?_ (fun _ => ?_)
        · simp [WriteResult.rv, hadd, -List.length_take, htaken]
        · rw [hadd, WriteResult.rv, Int.toNat_natCast, ← List.drop_drop, List.take_append_drop]
      · rename_i hnext
        cases List.isEmpty_iff.mp hcall
        rw [if_neg hnext]
        have hall : written + n = buf.length := by omega
        refine .written (by simp) ?_ ?_ (fun _ => ?_)
        · simp only [hadd, hall]
          rw [signedOf_natCast (by omega)]
        · simp only [WriteResult.rv, Int.toNat_natCast, htaken]
          simpa using hall
        · rw [WriteResult.rv, Int.toNat_natCast, List.take_of_length_le]
          rw [List.length_drop]
          omega

/-- A call sends its buffer once exactly when write() never would have blocked, unless an error
ends it: each such result is counted as one byte less. No object of C has 2 ^ 63 bytes. -/
theorem writeB_sentOnce_iff (hpos : 0 < buf.length) (hbuf : buf.length < 2 ^ 63)
    (hcall : wholeCall buf.length 0 results = true) :
    SentOnce buf results ↔ .eagain ∉ results ∨ results.getLast? = some .error := by
  have hinside (request) (h : request ∈ (writeB buf results).requests) : request.1 + request.2 ≤ buf.length :=
    (writeBLoop_inside hbuf results hpos request h).le
  have hne : (buf.length : Int) ≠ -1 := by omega
  have hend : CallEnd buf 0 results (writeB buf results) := writeBLoop_end hbuf results hpos hcall
  cases hend with
  | error last ret =>
    refine iff_of_true ⟨fun h => ?_, fun _ => List.mem_of_getLast? last, hinside⟩ (.inr last)
    rw [ret, Option.some_inj] at h
    exact absurd h.symm hne
  | wrapped noError eagain ret =>
    refine iff_of_false (fun h => noError (h.failed ret)) ?_
    rintro (h | h)
    · exact h eagain
    · exact noError (List.mem_of_getLast? h)
  | written noError ret length accepted =>
    constructor
    · intro h
      refine .inl fun hmem => ?_
      have hcount := List.count_pos_iff.mpr hmem
      have := congrArg List.length (h.accepted ret)
      omega
    · rintro (h | h)
      · refine ⟨fun _ => accepted h, fun hret => ?_, hinside⟩
        rw [ret, Option.some_inj] at hret
        exact absurd hret hne
      · exact absurd (List.mem_of_getLast? h) noError

theorem writeB_sentOnce_iff_partial :
    SentOnce [1, 2, 3] [.count 2, .count 1] ↔
      WriteResult.eagain ∉ [.count 2, .count 1] ∨ [WriteResult.count 2, .count 1].getLast? = some .error :=
  writeB_sentOnce_iff (by decide) (by decide) (by decide)

/-- A byte goes out twice in a call that reports two bytes, and a call fails without an error. -/
theorem writeB_eagain :
    wholeCall 2 0 [.count 1, .eagain, .count 2] = true ∧
    writeB [1, 2] [.count 1, .eagain, .count 2] = ⟨[(0, 2), (1, 1), (0, 2)], [1, 1, 2], some 2⟩ ∧
    ¬SentOnce [1, 2] [.count 1, .eagain, .count 2] ∧
    wholeCall 2 0 [.eagain] = true ∧ writeB [1, 2] [.eagain] = ⟨[(0, 2)], [], some (-1)⟩ ∧
    ¬SentOnce [1, 2] [.eagain] := by
  refine ⟨by decide, by decide, fun h => ?_, by decide, by decide, fun h => ?_⟩
  · exact absurd (h.accepted (by decide)) (by decide)
  · exact absurd (h.failed (by decide)) (by decide)

end Glip.Jtag
