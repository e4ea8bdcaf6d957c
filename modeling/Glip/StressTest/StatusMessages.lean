import Glip.StressTest.RandomWords

/-! The state machine of io_stress_test.v, and the words with which it ends a write test. -/
namespace Glip.StressTest
open Foundation

inductive IoState where
  | idle
  | setupTest1
  | setupTest2
  | writeTest
  | writeTestWait
  | writeTestSuccess
  | writeError1
  | writeError2
  | writeError3
  | readTest
  | readTestWait
  | readTestSuccess
  deriving DecidableEq

inductive TestMode where
  | writeTest
  | readTest
  deriving DecidableEq

structure IoStressTest (w : Width) where
  state : IoState
  testmode : TestMode
  error : Bool
  rndWaitMode : Bool
  rndWait : Bool
  delayCnt : BitVec 16
  byteCounter : BitVec 36
  intStallFlag : Bool
  rndData : BitVec w.bits
  deriving DecidableEq

structure IoIn (w : Width) where
  rst : Bool
  fifoOutReady : Bool
  fifoInValid : Bool
  fifoInData : BitVec w.bits
  stallFlag : Bool
  errorFlag : Bool

structure IoWires (w : Width) where
  nxtState : IoState
  nxtTestmode : TestMode
  nxtRndWaitMode : Bool
  nxtByteCounter : BitVec 36
  genRnd : Bool
  rndInit : Bool
  setError : Bool
  fifoInReady : Bool
  fifoOutValid : Bool
  fifoOutData : BitVec w.bits
  idle : Bool

def initiateWriteTest (w : Width) : BitVec w.bits := 0x420A
def initiateRndWaitWriteTest (w : Width) : BitVec w.bits := 0x421A
def initiateReadTest (w : Width) : BitVec w.bits := 0x420B
def initiateRndWaitReadTest (w : Width) : BitVec w.bits := 0x421B
def errorWord (w : Width) : BitVec w.bits := 0xDEAD
def successWord (w : Width) : BitVec w.bits := 0xCAFE

namespace IoStressTest
variable {w : Width}

def wires (wordCountLshift : Nat) (s : IoStressTest w) (i : IoIn w) : IoWires w :=
  let defaults : IoWires w :=
    ⟨s.state, s.testmode, s.rndWaitMode, 0, false, false, false, false, false, s.rndData, false⟩
  match s.state with
  | .idle =>
    let waiting := { defaults with idle := true, nxtRndWaitMode := false }
    if i.fifoInValid && !s.error then
      let taken := { waiting with fifoInReady := true }
      if i.fifoInData = initiateWriteTest w ∨ i.fifoInData = initiateRndWaitWriteTest w then
        { taken with nxtState := .setupTest1, nxtTestmode := .writeTest, nxtRndWaitMode := i.fifoInData.getLsbD 4 }
      else if i.fifoInData = initiateReadTest w ∨ i.fifoInData = initiateRndWaitReadTest w then
        { taken with nxtState := .setupTest1, nxtTestmode := .readTest, nxtRndWaitMode := i.fifoInData.getLsbD 4 }
      else { taken with setError := true }
    else waiting
  | .setupTest1 =>
    if i.fifoInValid then { defaults with fifoInReady := true, rndInit := true, nxtState := .setupTest2 } else defaults
  | .setupTest2 =>
    if i.fifoInValid then
      { defaults with
        fifoInReady := true
        nxtByteCounter := (i.fifoInData.setWidth 16).setWidth 36 <<< wordCountLshift
        nxtState := if s.testmode = .writeTest then .writeTest else .readTest }
    else defaults
  | .writeTest =>
    if s.byteCounter = 0 then
      { defaults with fifoOutData := successWord w, fifoOutValid := true, nxtState := .writeTestSuccess }
    else if i.fifoInValid && !s.intStallFlag then
      if i.fifoInData = s.rndData then { defaults with fifoInReady := true, genRnd := true }
      else
        { defaults with
          setError := true, fifoOutData := errorWord w, fifoOutValid := true, nxtState := .writeError1 }
    else defaults
  | .writeTestSuccess =>
    if i.fifoOutReady then { defaults with nxtState := .idle }
    else { defaults with fifoOutData := successWord w, fifoOutValid := true }
  | .writeError1 =>
    if i.fifoOutReady then
      { defaults with fifoOutValid := true, fifoOutData := i.fifoInData, nxtState := .writeError2 }
    else { defaults with fifoOutValid := true, fifoOutData := errorWord w }
  | .writeError2 =>
    if i.fifoOutReady then { defaults with fifoOutValid := true, nxtState := .writeError3 }
    else { defaults with fifoOutValid := true, fifoOutData := i.fifoInData }
  | .writeError3 =>
    if i.fifoOutReady then { defaults with nxtState := .idle } else { defaults with fifoOutValid := true }
  | .readTest =>
    if s.byteCounter = 0 then { defaults with nxtState := .readTestSuccess }
    else
      let received :=
        if i.fifoInValid then
          if i.fifoInData = errorWord w then { defaults with fifoInReady := true, setError := true, nxtState := .idle }
          else { defaults with fifoInReady := true }
        else defaults
      if i.fifoOutReady && !s.intStallFlag then { received with genRnd := true, fifoOutValid := true } else received
  | .readTestSuccess =>
    if i.fifoInValid then
      { defaults with fifoInReady := true, setError := i.fifoInData != successWord w, nxtState := .idle }
    else defaults
  | .writeTestWait | .readTestWait => defaults

def next (wordCountLshift : Nat) (s : IoStressTest w) (i : IoIn w) : IoStressTest w :=
  let u := s.wires wordCountLshift i
  { state := if i.rst then .idle else u.nxtState
    testmode := if i.rst then .writeTest else u.nxtTestmode
    error := if i.rst then false else s.error || u.setError
    rndWaitMode := if i.rst then false else u.nxtRndWaitMode
    rndWait := if i.rst then false else if s.rndWaitMode && s.delayCnt == 0 then !s.rndWait else s.rndWait
    delayCnt :=
      if i.rst then 0
      else if s.rndWaitMode then
        if s.delayCnt > 0 then s.delayCnt - 1
        else if s.rndData.setWidth 16 = 0 then 0x1000 else s.rndData.setWidth 16
      else 0
    byteCounter :=
      if i.rst then 0
      else if u.nxtByteCounter > 0 then u.nxtByteCounter
      else if s.byteCounter > 0 then
        if u.genRnd then s.byteCounter - BitVec.ofNat 36 (w.bits / 8) else s.byteCounter
      else 0
    intStallFlag := i.stallFlag || s.rndWait
    rndData := nextRnd w.shift s.rndData ⟨i.fifoInData, u.rndInit, u.genRnd && !i.errorFlag⟩ }

end IoStressTest

def ioStressTest (w : Width) (wordCountLshift : Nat) : Transducer (IoStressTest w) (IoIn w) (BitVec w.bits) where
  next := IoStressTest.next wordCountLshift
  emit s i :=
    let u := s.wires wordCountLshift i
    if u.fifoOutValid && i.fifoOutReady then [u.fifoOutData] else []

inductive HostVerdict (w : Width) where
  | success
  | deviceError (received expected : BitVec w.bits)
  | invalid
  deriving DecidableEq

/-- `write_stress_test_read` on the words of one read; it returns 0 for the first verdict alone. -/
def writeStressTestRead (w : Width) : List (BitVec w.bits) → HostVerdict w
  | [word] => if word = successWord w then .success else .invalid
  | [first, received, expected] => if first = errorWord w then .deviceError received expected else .invalid
  | _ => .invalid

section
variable {w : Width} {L : Nat} {s : IoStressTest w} {i : IoIn w} {is before : List (IoIn w)}

/-- A cycle in which a write test ends, and the words that should tell the host of it. -/
def Ends (s : IoStressTest w) (i : IoIn w) : Prop :=
  s.byteCounter = 0 ∨ (i.fifoInValid && !s.intStallFlag) = true ∧ i.fifoInData ≠ s.rndData

def status (s : IoStressTest w) (i : IoIn w) : List (BitVec w.bits) :=
  if s.byteCounter = 0 then [successWord w] else [errorWord w, i.fifoInData, s.rndData]

theorem writeStressTestRead_status (s : IoStressTest w) (i : IoIn w) : writeStressTestRead w (status s i) =
    if s.byteCounter = 0 then .success else .deviceError i.fifoInData s.rndData := by
  rw [status]
  split
  · exact if_pos rfl
  · exact if_pos rfl

def FirstIdle (L : Nat) : IoStressTest w → List (IoIn w) → Prop
  | s, [] => s.state = .idle
  | s, i :: is => s.state ≠ .idle ∧ i.rst = false ∧ FirstIdle L (s.next L i) is

/-- A write test from one of its cycles on, up to the cycle in which it ends, and back to the idle state. -/
structure TestRun (L : Nat) (s : IoStressTest w) (before : List (IoIn w)) (i : IoIn w) (is : List (IoIn w)) : Prop where
  start : s.state = .writeTest
  running : (ioStressTest w L).Each (fun s i => ¬ Ends s i) s before
  ends : Ends ((ioStressTest w L).after s before) i
  back : FirstIdle L s (before ++ i :: is)

instance : Decidable (Ends s i) := inferInstanceAs (Decidable (_ ∨ _ ∧ _))

instance decidableFirstIdle (L : Nat) : (s : IoStressTest w) → (is : List (IoIn w)) → Decidable (FirstIdle L s is)
  | s, [] => inferInstanceAs (Decidable (s.state = .idle))
  | s, i :: is =>
    have := decidableFirstIdle L (s.next L i) is
    inferInstanceAs (Decidable (_ ∧ _ ∧ _))

/-- A cycle of a test that does not end with it. -/
theorem writeTest_step (hs : s.state = .writeTest) (hi : i.rst = false) (h : ¬ Ends s i) :
    (s.next L i).state = .writeTest ∧ (ioStressTest w L).emit s i = [] := by
  obtain ⟨hcount, hword⟩ := not_or.mp h
  by_cases hvalid : (i.fifoInValid && !s.intStallFlag) = true
  · have heq : i.fifoInData = s.rndData := by
      by_contra hne
      exact hword ⟨hvalid, hne⟩
    simp only [IoStressTest.next, ioStressTest, IoStressTest.wires, hs, hi, hcount, hvalid, heq]
    simp
  · simp only [IoStressTest.next, ioStressTest, IoStressTest.wires, hs, hi, hcount, hvalid]
    simp

/-- The cycle with which it ends. -/
theorem ending_step (hs : s.state = .writeTest) (hi : i.rst = false) (h : Ends s i) :
    (s.next L i).state = (if s.byteCounter = 0 then .writeTestSuccess else .writeError1) ∧
      (s.next L i).rndData = s.rndData ∧
      (ioStressTest w L).emit s i =
        if i.fifoOutReady then [if s.byteCounter = 0 then successWord w else errorWord w] else [] := by
  by_cases hcount : s.byteCounter = 0
  · simp only [IoStressTest.next, ioStressTest, IoStressTest.wires, hs, hi, hcount]
    simp [nextRnd]
  · obtain ⟨hvalid, hne⟩ := h.resolve_left hcount
    simp only [IoStressTest.next, ioStressTest, IoStressTest.wires, hs, hi, hcount, hvalid, hne]
    simp [nextRnd]

/-- A cycle of the states behind the end: they wait for a ready FIFO. -/
theorem status_step (hi : i.rst = false) :
    (s.state = .writeTestSuccess → (s.next L i).state = (if i.fifoOutReady then .idle else .writeTestSuccess) ∧
      (ioStressTest w L).emit s i = []) ∧
    (s.state = .writeError1 → (s.next L i).state = (if i.fifoOutReady then .writeError2 else .writeError1) ∧
      (s.next L i).rndData = s.rndData ∧
      (ioStressTest w L).emit s i = if i.fifoOutReady then [i.fifoInData] else []) ∧
    (s.state = .writeError2 → (s.next L i).state = (if i.fifoOutReady then .writeError3 else .writeError2) ∧
      (s.next L i).rndData = s.rndData ∧
      (ioStressTest w L).emit s i = if i.fifoOutReady then [s.rndData] else []) ∧
    (s.state = .writeError3 → (s.next L i).state = (if i.fifoOutReady then .idle else .writeError3) ∧
      (ioStressTest w L).emit s i = []) := by
  refine ⟨fun hs => ?_, fun hs => ?_, fun hs => ?_, fun hs => ?_⟩
  all_goals
    simp only [IoStressTest.next, ioStressTest, IoStressTest.wires, hs, hi]
    cases i.fifoOutReady <;> simp [nextRnd]

theorem FirstIdle.append (h : FirstIdle L s (before ++ is)) : FirstIdle L ((ioStressTest w L).after s before) is := by
  induction before generalizing s with
  | nil => exact h
  | cons i before ih => exact ih h.2.2

theorem FirstIdle.nil_of_idle (h : FirstIdle L s is) (hs : s.state = .idle) : is = [] := by
  cases is with
  | nil => rfl
  | cons i is => exact absurd hs h.1

theorem quiet_run (hs : s.state = .writeTestSuccess ∨ s.state = .writeError3) (h : FirstIdle L s is) :
    (ioStressTest w L).emitted s is = [] := by
  induction is generalizing s with
  | nil => rfl
  | cons i is ih =>
    obtain ⟨-, hi, hrest⟩ := h
    obtain ⟨hsuccess, -, -, herror⟩ := status_step (L := L) (s := s) hi
    have hstep : (ioStressTest w L).emit s i = [] ∧ (s.next L i).state = if i.fifoOutReady then .idle else s.state := by
      obtain hs | hs := hs
      · exact ⟨(hsuccess hs).2, hs ▸ (hsuccess hs).1⟩
      · exact ⟨(herror hs).2, hs ▸ (herror hs).1⟩
    rw [Transducer.emitted_cons, hstep.1, List.nil_append]
    cases hready : i.fifoOutReady with
    | true =>
      rw [hready, if_pos rfl] at hstep
      rw [hrest.nil_of_idle hstep.2]
      rfl
    | false =>
      rw [hready, if_neg Bool.false_ne_true] at hstep
      exact ih (hstep.2 ▸ hs) hrest

theorem error2_run (hs : s.state = .writeError2) (h : FirstIdle L s is) :
    (ioStressTest w L).emitted s is = [s.rndData] := by
  induction is generalizing s with
  | nil => exact absurd (hs.symm.trans h) (by decide)
  | cons i is ih =>
    obtain ⟨-, hi, hrest⟩ := h
    obtain ⟨hstate, hrnd, hemit⟩ := (status_step (L := L) (s := s) hi).2.2.1 hs
    rw [Transducer.emitted_cons, hemit]
    cases hready : i.fifoOutReady with
    | true =>
      rw [hready] at hstate
      exact congrArg _ (quiet_run (.inr hstate) hrest)
    | false =>
      rw [hready] at hstate
      exact (ih hstate hrest).trans (congrArg (fun v => [v]) hrnd)

/-- The received word is read again from the FIFO when the second word is transferred. -/
theorem error1_run (hs : s.state = .writeError1) (h : FirstIdle L s is) :
    ∃ j, is.find? (·.fifoOutReady) = some j ∧ (ioStressTest w L).emitted s is = [j.fifoInData, s.rndData] := by
  induction is generalizing s with
  | nil => exact absurd (hs.symm.trans h) (by decide)
  | cons i is ih =>
    obtain ⟨-, hi, hrest⟩ := h
    obtain ⟨hstate, hrnd, hemit⟩ := (status_step (L := L) (s := s) hi).2.1 hs
    rw [Transducer.emitted_cons, hemit]
    cases hready : i.fifoOutReady with
    | true =>
      rw [hready] at hstate
      refine ⟨i, List.find?_cons_of_pos hready, ?_⟩
      exact congrArg (i.fifoInData :: ·) ((error2_run hstate hrest).trans (congrArg (fun v => [v]) hrnd))
    | false =>
      rw [hready] at hstate
      obtain ⟨j, hj, hwords⟩ := ih hstate hrest
      refine ⟨j, (List.find?_cons_of_neg (by simp [hready])).trans hj, hwords.trans ?_⟩
      exact congrArg (fun v => [j.fifoInData, v]) hrnd

/-- Nothing is transferred before the end. -/
theorem running_run (hs : s.state = .writeTest) (hbefore : (ioStressTest w L).Each (fun s i => ¬ Ends s i) s before)
    (h : FirstIdle L s (before ++ is)) :
    ((ioStressTest w L).after s before).state = .writeTest ∧ (ioStressTest w L).emitted s before = [] := by
  induction before generalizing s with
  | nil => exact ⟨hs, rfl⟩
  | cons i before ih =>
    obtain ⟨-, hi, hrest⟩ := h
    obtain ⟨hstate, hemit⟩ := writeTest_step (L := L) hs hi hbefore.1
    obtain ⟨hafter, hemitted⟩ := ih hstate hbefore.2 hrest
    rw [Transducer.after_cons, Transducer.emitted_cons, hemit, List.nil_append]
    exact ⟨hafter, hemitted⟩

/-- The words of the end of a test that is about to end. -/
theorem ending_run (hs : s.state = .writeTest) (h : Ends s i) (hback : FirstIdle L s (i :: is)) :
    (ioStressTest w L).emitted s (i :: is) = status s i ↔
      i.fifoOutReady = true ∧ (s.byteCounter ≠ 0 →
        (is.find? (·.fifoOutReady)).map IoIn.fifoInData = some i.fifoInData) := by
  obtain ⟨-, hi, hrest⟩ := hback
  obtain ⟨hstate, hrnd, hemit⟩ := ending_step (L := L) hs hi h
  rw [Transducer.emitted_cons, hemit, status]
  by_cases hcount : s.byteCounter = 0
  · rw [if_pos hcount] at hstate
    have hquiet : (ioStressTest w L).emitted ((ioStressTest w L).next s i) is = [] := quiet_run (.inl hstate) hrest
    rw [if_pos hcount, if_pos hcount, hquiet, List.append_nil]
    simp only [ne_eq, hcount, not_true_eq_false, false_imp_iff, and_true]
    cases i.fifoOutReady <;> simp
  · rw [if_neg hcount] at hstate
    obtain ⟨j, hj, hwords⟩ := error1_run hstate hrest
    have hrest : (ioStressTest w L).emitted ((ioStressTest w L).next s i) is = [j.fifoInData, s.rndData] :=
      hwords.trans (congrArg (fun v => [j.fifoInData, v]) hrnd)
    rw [if_neg hcount, if_neg hcount, hrest, hj]
    simp only [ne_eq, hcount, not_false_eq_true, forall_const]
    cases i.fifoOutReady <;> simp

theorem status_words_iff (h : TestRun L s before i is) :
    (ioStressTest w L).emitted s (before ++ i :: is) = status ((ioStressTest w L).after s before) i ↔
      i.fifoOutReady = true ∧ (((ioStressTest w L).after s before).byteCounter ≠ 0 →
        (is.find? (·.fifoOutReady)).map IoIn.fifoInData = some i.fifoInData) := by
  obtain ⟨hs, hbefore, hends, hback⟩ := h
  obtain ⟨hstate, hemitted⟩ := running_run hs hbefore hback
  rw [Transducer.emitted_append, hemitted, List.nil_append]
  exact ending_run hstate hends hback.append

end

def cycleOf (fifoOutReady : Bool) (word : BitVec 16) : IoIn .w16 := ⟨false, fifoOutReady, true, word, false, false⟩

def setUp (count : BitVec 16) : IoStressTest .w16 :=
  (ioStressTest .w16 20).after ⟨.idle, .writeTest, false, false, false, 0, 0, false, 0⟩
    [cycleOf true 0x420A, cycleOf true 1, cycleOf true count]

/-- The first word of the test is right and the second one is not; the FIFO is ready when the test ends. -/
theorem status_words_ready : (ioStressTest .w16 20).emitted (setUp 1) ([cycleOf true 2] ++ cycleOf true 7 ::
    [cycleOf false 7, cycleOf true 7, cycleOf true 7, cycleOf true 7]) = [0xDEAD, 7, 4] := by
  have htest : TestRun 20 (setUp 1) [cycleOf true 2] (cycleOf true 7)
      [cycleOf false 7, cycleOf true 7, cycleOf true 7, cycleOf true 7] :=
    ⟨by decide +kernel, by decide +kernel, by decide +kernel, by decide +kernel⟩
  exact (status_words_iff htest).mpr (by decide +kernel)

/-- A FIFO that is not ready in the cycle in which the test ends: there is no word of success, or no `ERROR`. -/
theorem status_words_late :
    TestRun 20 (setUp 0) [] (cycleOf false 0) [cycleOf true 0] ∧
      (ioStressTest .w16 20).emitted (setUp 0) [cycleOf false 0, cycleOf true 0] = [] ∧
      status (setUp 0) (cycleOf false 0) = [0xCAFE] ∧
    TestRun 20 (setUp 1) [] (cycleOf false 7) [cycleOf true 7, cycleOf true 7, cycleOf true 7] ∧
      (ioStressTest .w16 20).emitted (setUp 1) [cycleOf false 7, cycleOf true 7, cycleOf true 7, cycleOf true 7] = [7, 2] ∧
      status (setUp 1) (cycleOf false 7) = [0xDEAD, 7, 2] := by
  refine ⟨⟨by decide +kernel, trivial, by decide +kernel, by decide +kernel⟩, by decide +kernel, by decide +kernel,
    ⟨by decide +kernel, trivial, by decide +kernel, by decide +kernel⟩, by decide +kernel, by decide +kernel⟩

end Glip.StressTest
