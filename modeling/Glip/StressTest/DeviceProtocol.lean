import Glip.Foundation.TraceRefinement
import Glip.StressTest.StatusMessages
import Mathlib.Algebra.Group.Nat.Defs

/-! The protocol of a stress test as the device follows it, in words instead of clock cycles. -/
namespace Glip.StressTest
open Foundation

/-- A word that the device takes from the incoming FIFO, that it finds there and leaves, or that it sends. -/
inductive WordEvent (w : Width) where
  | taken (word : BitVec w.bits)
  | refused (word : BitVec w.bits)
  | sent (word : BitVec w.bits)
  deriving DecidableEq

/-- The words of the cycles of the module; a word that ends a test comes behind one that is sent with it. -/
def deviceWords (w : Width) (wordCountLshift : Nat) : Transducer (IoStressTest w) (IoIn w) (WordEvent w) where
  next := IoStressTest.next wordCountLshift
  emit s i :=
    let u := s.wires wordCountLshift i
    let taken := if i.fifoInValid && u.fifoInReady then [.taken i.fifoInData] else []
    let refused := if u.setError && !u.fifoInReady then [.refused i.fifoInData] else []
    let sent := if u.fifoOutValid && i.fifoOutReady then [.sent u.fifoOutData] else []
    refused ++ if u.setError then sent ++ taken else taken ++ sent

def requestedTest {w : Width} (word : BitVec w.bits) : Option TestMode :=
  if word = initiateWriteTest w ∨ word = initiateRndWaitWriteTest w then some .writeTest
  else if word = initiateReadTest w ∨ word = initiateRndWaitReadTest w then some .readTest
  else none

def testWord {w : Width} (seed : BitVec w.bits) (k : Nat) : BitVec w.bits :=
  w.shift^[k] (if seed = 0 then 1 else w.shift seed)

/-- `WORD_COUNT_LSHIFT`: the count fits in the counter of 36 bits, and the bytes are whole words. -/
structure WordCountLshift (w : Width) where
  val : Nat
  le : val ≤ 20
  dvd : w.bits / 8 ∣ 2 ^ val

def WordCountLshift.words {w : Width} (L : WordCountLshift w) (count : BitVec w.bits) : Nat :=
  (count.setWidth 16).toNat * 2 ^ L.val / (w.bits / 8)

inductive Phase (w : Width) where
  | idle
  | seeding (mode : TestMode)
  | counting (mode : TestMode) (seed : BitVec w.bits)
  /-- So many words of so many have been taken. -/
  | writing (seed : BitVec w.bits) (total k : Nat)
  | passed
  /-- The three words of a report are still to be sent, or two, or one. -/
  | mismatch (expected : BitVec w.bits)
  | reporting (expected : BitVec w.bits)
  | expecting (expected : BitVec w.bits)
  /-- And so many have been sent. -/
  | reading (seed : BitVec w.bits) (total k : Nat)
  | failed
  deriving DecidableEq

namespace Phase
variable {w : Width}

inductive Step (L : WordCountLshift w) : Phase w → Option (WordEvent w) → Phase w → Prop where
  | initiate {word mode} (h : requestedTest word = some mode) : Step L idle (some (.taken word)) (seeding mode)
  | unknown {word} (h : requestedTest word = none) : Step L idle (some (.taken word)) failed
  | seed {mode v} : Step L (seeding mode) (some (.taken v)) (counting mode v)
  | startWrite {seed word} : Step L (counting .writeTest seed) (some (.taken word)) (writing seed (L.words word) 0)
  | startRead {seed word} : Step L (counting .readTest seed) (some (.taken word)) (reading seed (L.words word) 0)
  | accept {seed n k} (h : k < n) : Step L (writing seed n k) (some (.taken (testWord seed k))) (writing seed n (k + 1))
  | refuse {seed n k word} (h : k < n) (hne : word ≠ testWord seed k) :
      Step L (writing seed n k) (some (.refused word)) (mismatch (testWord seed k))
  | success {seed n} : Step L (writing seed n n) (some (.sent (successWord w))) passed
  | successLost {seed n} : Step L (writing seed n n) none passed
  | finish : Step L passed none idle
  | error {v} : Step L (mismatch v) (some (.sent (errorWord w))) (reporting v)
  | errorLost {v} : Step L (mismatch v) none (reporting v)
  | received {v u} : Step L (reporting v) (some (.sent u)) (expecting v)
  | expected {v} : Step L (expecting v) (some (.sent v)) failed
  | send {seed n k} (h : k < n) : Step L (reading seed n k) (some (.sent (testWord seed k))) (reading seed n (k + 1))
  | ignore {seed n k word} (h : k < n) (hne : word ≠ errorWord w) :
      Step L (reading seed n k) (some (.taken word)) (reading seed n k)
  | abort {seed n k} : Step L (reading seed n k) (some (.taken (errorWord w))) failed
  | confirm {seed n} : Step L (reading seed n n) (some (.taken (successWord w))) idle
  | deny {seed n word} (hne : word ≠ successWord w) : Step L (reading seed n n) (some (.taken word)) failed

structure Running (s : IoStressTest w) (seed : BitVec w.bits) (n k : Nat) : Prop where
  le : k ≤ n
  byteCounter : s.byteCounter.toNat = (n - k) * (w.bits / 8)
  rndData : s.rndData = testWord seed k

def Models (s : IoStressTest w) : Phase w → Prop
  | idle => s.state = .idle ∧ s.error = false ∧ s.byteCounter = 0
  | seeding mode => s.state = .setupTest1 ∧ s.testmode = mode ∧ s.error = false ∧ s.byteCounter = 0
  | counting mode seed =>
    s.state = .setupTest2 ∧ s.testmode = mode ∧ s.error = false ∧ s.byteCounter = 0 ∧ s.rndData = testWord seed 0
  | writing seed n k => s.state = .writeTest ∧ s.error = false ∧ Running s seed n k
  | passed => s.state = .writeTestSuccess ∧ s.error = false ∧ s.byteCounter = 0
  | mismatch _ => False
  | reporting v => s.state = .writeError1 ∧ s.error = true ∧ s.rndData = v
  | expecting v => s.state = .writeError2 ∧ s.error = true ∧ s.rndData = v
  | reading seed n k =>
    (s.state = .readTest ∨ s.state = .readTestSuccess ∧ k = n) ∧ s.error = false ∧ Running s seed n k
  | failed => (s.state = .writeError3 ∨ s.state = .idle) ∧ s.error = true

section
variable {w : Width} {L : WordCountLshift w} {s : IoStressTest w} {i : IoIn w} {p : Phase w}
variable {seed : BitVec w.bits} {n k : Nat}

theorem word_bytes_pos (w : Width) : 0 < w.bits / 8 := by cases w <;> decide

theorem Running.zero_iff (h : Running s seed n k) : s.byteCounter = 0 ↔ k = n := by
  obtain ⟨hle, hcount, -⟩ := h
  have hpos := word_bytes_pos w
  have hzero : s.byteCounter = 0 ↔ (n - k) * (w.bits / 8) = 0 := by
    rw [← hcount, ← BitVec.toNat_inj]
    rfl
  rw [hzero, Nat.mul_eq_zero]
  omega

/-- The word is taken or sent. -/
theorem Running.advance {s' : IoStressTest w} (h : Running s seed n k) (hlt : k < n)
    (hcount : s'.byteCounter = s.byteCounter - BitVec.ofNat 36 (w.bits / 8)) (hrnd : s'.rndData = w.shift s.rndData) :
    Running s' seed n (k + 1) := by
  obtain ⟨-, hold, hword⟩ := h
  refine ⟨hlt, ?_, ?_⟩
  · have hsmall : (BitVec.ofNat 36 (w.bits / 8)).toNat = w.bits / 8 := by cases w <;> decide
    have hle : w.bits / 8 ≤ (n - k) * (w.bits / 8) := Nat.le_mul_of_pos_left _ (by omega)
    have henough : BitVec.ofNat 36 (w.bits / 8) ≤ s.byteCounter := by rwa [BitVec.le_def, hsmall, hold]
    rw [hcount, BitVec.toNat_sub_of_le henough, hsmall, hold, ← Nat.sub_one_mul]
    rfl
  · rw [hrnd, hword, testWord, testWord, Function.iterate_succ_apply']

theorem Running.keep {s' : IoStressTest w} (h : Running s seed n k) (hcount : s'.byteCounter = s.byteCounter)
    (hrnd : s'.rndData = s.rndData) : Running s' seed n k :=
  ⟨h.le, hcount ▸ h.byteCounter, hrnd ▸ h.rndData⟩

/-- The counter is loaded with the bytes of whole words. -/
theorem words_mul (L : WordCountLshift w) (count : BitVec w.bits) :
    ((count.setWidth 16).setWidth 36 <<< L.val).toNat = L.words count * (w.bits / 8) := by
  have hcount := (count.setWidth 16).isLt
  have hpow : 2 ^ L.val ≤ 2 ^ 20 := Nat.pow_le_pow_right (by decide) L.le
  have hlt : (count.setWidth 16).toNat * 2 ^ L.val < 2 ^ 36 := by
    calc (count.setWidth 16).toNat * 2 ^ L.val ≤ (count.setWidth 16).toNat * 2 ^ 20 := Nat.mul_le_mul_left _ hpow
      _ < 2 ^ 16 * 2 ^ 20 := Nat.mul_lt_mul_of_pos_right hcount (by decide)
  rw [WordCountLshift.words, Nat.div_mul_cancel (Nat.dvd_mul_left_of_dvd L.dvd _), BitVec.toNat_shiftLeft,
    Nat.shiftLeft_eq, BitVec.toNat_setWidth_of_le (by decide), Nat.mod_eq_of_lt hlt]

def still (s : IoStressTest w) : IoWires w :=
  ⟨s.state, s.testmode, s.rndWaitMode, 0, false, false, false, false, false, s.rndData, false⟩

section Wires
variable {M : Nat}

theorem wires_idle_still (hs : s.state = .idle) (h : (i.fifoInValid && !s.error) = false) :
    s.wires M i = { still s with idle := true, nxtRndWaitMode := false } := by
  simp only [IoStressTest.wires, hs, h]
  simp [still, hs]

theorem wires_idle (hs : s.state = .idle) (h : (i.fifoInValid && !s.error) = true) :
    s.wires M i =
      { still s with
        idle := true
        nxtRndWaitMode := (requestedTest i.fifoInData).isSome && i.fifoInData.getLsbD 4
        fifoInReady := true
        nxtState := if (requestedTest i.fifoInData).isSome then .setupTest1 else .idle
        nxtTestmode := (requestedTest i.fifoInData).getD s.testmode
        setError := (requestedTest i.fifoInData).isNone } := by
  by_cases hwrite : i.fifoInData = initiateWriteTest w ∨ i.fifoInData = initiateRndWaitWriteTest w
  · have hword : requestedTest i.fifoInData = some .writeTest := if_pos hwrite
    simp only [IoStressTest.wires, hs, h, if_true, if_pos hwrite, hword]
    simp [still]
  by_cases hread : i.fifoInData = initiateReadTest w ∨ i.fifoInData = initiateRndWaitReadTest w
  · have hword : requestedTest i.fifoInData = some .readTest := (if_neg hwrite).trans (if_pos hread)
    simp only [IoStressTest.wires, hs, h, if_true, if_neg hwrite, if_pos hread, hword]
    simp [still]
  · have hword : requestedTest i.fifoInData = none := (if_neg hwrite).trans (if_neg hread)
    simp only [IoStressTest.wires, hs, h, if_true, if_neg hwrite, if_neg hread, hword]
    simp [still, hs]

/-- The setup words are waited for. -/
theorem wires_setup_still (hs : s.state = .setupTest1 ∨ s.state = .setupTest2) (h : i.fifoInValid = false) :
    s.wires M i = still s := by
  obtain hs | hs := hs <;> simp [IoStressTest.wires, still, hs, h]

theorem wires_seed (hs : s.state = .setupTest1) (h : i.fifoInValid = true) :
    s.wires M i = { still s with fifoInReady := true, rndInit := true, nxtState := .setupTest2 } := by
  simp [IoStressTest.wires, still, hs, h]

theorem wires_count (hs : s.state = .setupTest2) (h : i.fifoInValid = true) :
    s.wires M i =
      { still s with
        fifoInReady := true
        nxtByteCounter := (i.fifoInData.setWidth 16).setWidth 36 <<< M
        nxtState := if s.testmode = .writeTest then .writeTest else .readTest } := by
  simp [IoStressTest.wires, still, hs, h]

theorem wires_write_end (hs : s.state = .writeTest) (hcount : s.byteCounter = 0) :
    s.wires M i =
      { still s with fifoOutData := successWord w, fifoOutValid := true, nxtState := .writeTestSuccess } := by
  simp [IoStressTest.wires, still, hs, hcount]

theorem wires_write_still (hs : s.state = .writeTest) (hcount : s.byteCounter ≠ 0)
    (h : (i.fifoInValid && !s.intStallFlag) = false) : s.wires M i = still s := by
  simp only [IoStressTest.wires, hs, if_neg hcount, h]
  simp [still, hs]

theorem wires_write (hs : s.state = .writeTest) (hcount : s.byteCounter ≠ 0)
    (h : (i.fifoInValid && !s.intStallFlag) = true) :
    s.wires M i =
      if i.fifoInData = s.rndData then { still s with fifoInReady := true, genRnd := true }
      else
        { still s with
          setError := true, fifoOutData := errorWord w, fifoOutValid := true, nxtState := .writeError1 } := by
  simp only [IoStressTest.wires, hs, if_neg hcount, h, if_true]
  simp only [still, hs]

theorem wires_read_end (hs : s.state = .readTest) (hcount : s.byteCounter = 0) :
    s.wires M i = { still s with nxtState := .readTestSuccess } := by
  simp [IoStressTest.wires, still, hs, hcount]

/-- The two directions of a read test do not wait for each other. -/
theorem wires_read (hs : s.state = .readTest) (hcount : s.byteCounter ≠ 0) :
    s.wires M i =
      let aborted := i.fifoInValid && i.fifoInData == errorWord w
      let sends := i.fifoOutReady && !s.intStallFlag
      { still s with
        fifoInReady := i.fifoInValid, setError := aborted, nxtState := if aborted then .idle else .readTest
        genRnd := sends, fifoOutValid := sends } := by
  simp only [IoStressTest.wires, hs, if_neg hcount]
  cases i.fifoInValid <;> cases i.fifoOutReady && !s.intStallFlag <;>
    by_cases hword : i.fifoInData = errorWord w <;> simp [still, hs, hword]

theorem wires_read_verdict (hs : s.state = .readTestSuccess) (h : i.fifoInValid = true) :
    s.wires M i =
      { still s with fifoInReady := true, setError := i.fifoInData != successWord w, nxtState := .idle } := by
  simp [IoStressTest.wires, still, hs, h]

theorem wires_read_verdict_still (hs : s.state = .readTestSuccess) (h : i.fifoInValid = false) :
    s.wires M i = still s := by
  simp [IoStressTest.wires, still, hs, h]

end Wires

/-- The counter when nothing, or a word, has been transferred, and when it is loaded. -/
theorem byteCounter_next {M : Nat} (hi : i.rst = false) :
    ((s.wires M i).nxtByteCounter = 0 → (s.wires M i).genRnd = false → (s.next M i).byteCounter = s.byteCounter) ∧
    ((s.wires M i).nxtByteCounter = 0 → (s.wires M i).genRnd = true → s.byteCounter ≠ 0 →
      (s.next M i).byteCounter = s.byteCounter - BitVec.ofNat 36 (w.bits / 8)) ∧
    (s.byteCounter = 0 → (s.next M i).byteCounter = (s.wires M i).nxtByteCounter) := by
  have hpos (b : BitVec 36) : b > 0 ↔ b ≠ 0 := by
    rw [gt_iff_lt, BitVec.lt_def, ne_eq, ← BitVec.toNat_inj]
    exact Nat.pos_iff_ne_zero
  simp only [IoStressTest.next, hi, Bool.false_eq_true, if_false, hpos]
  refine ⟨fun hload hgen => ?_, fun hload hgen hcount => ?_, fun hcount => ?_⟩
  · rw [hload, hgen, if_neg (not_not_intro rfl)]
    by_cases hcount : s.byteCounter = 0
    · rw [if_neg (not_not_intro hcount), hcount]
    · rw [if_pos hcount, if_neg Bool.false_ne_true]
  · rw [hload, hgen, if_neg (not_not_intro rfl), if_pos hcount, if_pos rfl]
  · rw [hcount]
    by_cases hload : (s.wires M i).nxtByteCounter = 0
    · rw [if_neg (not_not_intro hload), if_neg (not_not_intro rfl), hload]
    · rw [if_pos hload]

/-- A cycle in a phase is a run of the protocol from there. -/
def Follows (L : WordCountLshift w) (s : IoStressTest w) (i : IoIn w) (p : Phase w) : Prop :=
  ∃ p', Runs (Step L) p ((deviceWords w L.val).emit s i) p' ∧ Models (s.next L.val i) p'

theorem Follows.intro {es : List (WordEvent w)} {p' : Phase w} (hrun : Runs (Step L) p es p')
    (hes : (deviceWords w L.val).emit s i = es) (hp : Models (s.next L.val i) p') : Follows L s i p :=
  ⟨p', hes ▸ hrun, hp⟩

theorem follows_idle (hi : i.rst = false) (h : Models s .idle) : Follows L s i .idle := by
  obtain ⟨hs, herror, hcount⟩ := h
  cases hvalid : i.fifoInValid with
  | false =>
    have hwires := wires_idle_still (M := L.val) hs (i := i) (by rw [hvalid]; rfl)
    refine .intro (.refl idle) ?_ ⟨?_, ?_, ?_⟩
    · simp [deviceWords, hwires, still]
    · simp [IoStressTest.next, hwires, still, hs, hi]
    · simp [IoStressTest.next, hwires, still, herror, hi]
    · simp [IoStressTest.next, hwires, still, hcount]
  | true =>
    have hwires := wires_idle (M := L.val) hs (i := i) (by rw [hvalid, herror]; rfl)
    have hemit : (deviceWords w L.val).emit s i = [.taken i.fifoInData] := by
      simp [deviceWords, hwires, still, hvalid]
    cases hword : requestedTest i.fifoInData with
    | none =>
      rw [hword] at hwires
      refine .intro (.one (.unknown hword)) hemit ⟨.inr ?_, ?_⟩
      · simp [IoStressTest.next, hwires, hi]
      · simp [IoStressTest.next, hwires, hi]
    | some mode =>
      rw [hword] at hwires
      refine .intro (.one (.initiate hword)) hemit ⟨?_, ?_, ?_, ?_⟩
      · simp [IoStressTest.next, hwires, hi]
      · simp [IoStressTest.next, hwires, hi]
      · simp [IoStressTest.next, hwires, herror, hi]
      · simp [IoStressTest.next, hwires, still, hcount]

theorem follows_seeding {mode : TestMode} (hi : i.rst = false) (h : Models s (.seeding mode)) :
    Follows L s i (.seeding mode) := by
  obtain ⟨hs, hmode, herror, hcount⟩ := h
  cases hvalid : i.fifoInValid with
  | false =>
    have hwires := wires_setup_still (M := L.val) (.inl hs) hvalid
    refine .intro (.refl _) ?_ ⟨?_, ?_, ?_, ?_⟩
    · simp [deviceWords, hwires, still]
    · simp [IoStressTest.next, hwires, still, hs, hi]
    · simp [IoStressTest.next, hwires, still, hmode, hi]
    · simp [IoStressTest.next, hwires, still, herror, hi]
    · simp [IoStressTest.next, hwires, still, hcount]
  | true =>
    have hwires := wires_seed (M := L.val) hs hvalid
    refine .intro (.one (.seed (v := i.fifoInData))) ?_ ⟨?_, ?_, ?_, ?_, ?_⟩
    · simp [deviceWords, hwires, still, hvalid]
    · simp [IoStressTest.next, hwires, hi]
    · simp [IoStressTest.next, hwires, still, hmode, hi]
    · simp [IoStressTest.next, hwires, still, herror, hi]
    · simp [IoStressTest.next, hwires, still, hcount]
    · simp [IoStressTest.next, hwires, nextRnd, testWord]

theorem follows_counting {mode : TestMode} (hi : i.rst = false) (h : Models s (.counting mode seed)) :
    Follows L s i (.counting mode seed) := by
  obtain ⟨hs, hmode, herror, hcount, hrnd⟩ := h
  cases hvalid : i.fifoInValid with
  | false =>
    have hwires := wires_setup_still (M := L.val) (.inr hs) hvalid
    refine .intro (.refl _) ?_ ⟨?_, ?_, ?_, ?_, ?_⟩
    · simp [deviceWords, hwires, still]
    · simp [IoStressTest.next, hwires, still, hs, hi]
    · simp [IoStressTest.next, hwires, still, hmode, hi]
    · simp [IoStressTest.next, hwires, still, herror, hi]
    · simp [IoStressTest.next, hwires, still, hcount]
    · simp [IoStressTest.next, hwires, still, nextRnd, hrnd]
  | true =>
    have hwires := wires_count (M := L.val) hs hvalid
    have hemit : (deviceWords w L.val).emit s i = [.taken i.fifoInData] := by
      simp [deviceWords, hwires, still, hvalid]
    -- a count of 0 leaves the counter as it is, and it is 0
    have hload : (s.next L.val i).byteCounter = (i.fifoInData.setWidth 16).setWidth 36 <<< L.val := by
      rw [(byteCounter_next hi).2.2 hcount, hwires]
    have hnext : Running (s.next L.val i) seed (L.words i.fifoInData) 0 := by
      refine ⟨Nat.zero_le _, by rw [hload, words_mul, Nat.sub_zero], ?_⟩
      simp [IoStressTest.next, hwires, still, nextRnd, hrnd]
    have herror' : (s.next L.val i).error = false := by simp [IoStressTest.next, hwires, still, herror]
    cases mode with
    | writeTest => exact .intro (.one .startWrite) hemit ⟨by simp [IoStressTest.next, hwires, hmode, hi], herror', hnext⟩
    | readTest =>
      exact .intro (.one .startRead) hemit ⟨.inl (by simp [IoStressTest.next, hwires, hmode, hi]), herror', hnext⟩

theorem follows_writing (hi : i.rst = false) (he : i.errorFlag = false) (h : Models s (.writing seed n k)) :
    Follows L s i (.writing seed n k) := by
  obtain ⟨hs, herror, hrun⟩ := h
  by_cases hcount : s.byteCounter = 0
  · obtain rfl := hrun.zero_iff.mp hcount
    have hwires := wires_write_end (M := L.val) (i := i) hs hcount
    have hnext : Models (s.next L.val i) .passed := by
      refine ⟨?_, ?_, ?_⟩
      · simp [IoStressTest.next, hwires, hi]
      · simp [IoStressTest.next, hwires, still, herror]
      · simp [IoStressTest.next, hwires, still, hcount]
    cases hready : i.fifoOutReady with
    | false => exact .intro (.quiet .successLost) (by simp [deviceWords, hwires, still, hready]) hnext
    | true => exact .intro (.one .success) (by simp [deviceWords, hwires, still, hready]) hnext
  have hlt : k < n := Nat.lt_of_le_of_ne hrun.le (mt hrun.zero_iff.mpr hcount)
  cases hvalid : i.fifoInValid && !s.intStallFlag with
  | false =>
    have hwires := wires_write_still (M := L.val) hs hcount hvalid
    refine .intro (.refl _) ?_ ⟨?_, ?_, hrun.keep ?_ ?_⟩
    · simp [deviceWords, hwires, still]
    · simp [IoStressTest.next, hwires, still, hs, hi]
    · simp [IoStressTest.next, hwires, still, herror]
    · exact (byteCounter_next hi).1 (by simp [hwires, still]) (by simp [hwires, still])
    · simp [IoStressTest.next, hwires, still, nextRnd]
  | true =>
    have hdata : i.fifoInValid = true := (Bool.and_eq_true_iff.mp hvalid).1
    have hwires := wires_write (M := L.val) hs hcount hvalid
    by_cases hword : i.fifoInData = s.rndData
    · rw [if_pos hword] at hwires
      refine .intro (.one (.accept hlt)) ?_ ⟨?_, ?_, hrun.advance hlt ?_ ?_⟩
      · simp [deviceWords, hwires, still, hdata, hword, hrun.rndData]
      · simp [IoStressTest.next, hwires, still, hs, hi]
      · simp [IoStressTest.next, hwires, still, herror]
      · exact (byteCounter_next hi).2.1 (by simp [hwires, still]) (by simp [hwires]) hcount
      · simp [IoStressTest.next, hwires, still, nextRnd, he]
    · rw [if_neg hword] at hwires
      have hrefuse := Runs.one (Step.refuse (L := L) hlt (hrun.rndData ▸ hword))
      have hnext : Models (s.next L.val i) (.reporting (testWord seed k)) := by
        refine ⟨?_, ?_, ?_⟩
        · simp [IoStressTest.next, hwires, hi]
        · simp [IoStressTest.next, hwires, hi]
        · simp [IoStressTest.next, hwires, still, nextRnd, hrun.rndData]
      cases hready : i.fifoOutReady with
      | false =>
        exact .intro (hrefuse.trans (.quiet .errorLost)) (by simp [deviceWords, hwires, still, hready]) hnext
      | true => exact .intro (hrefuse.trans (.one .error)) (by simp [deviceWords, hwires, still, hready]) hnext

/-- The last word of a report and the words of both verdicts wait for a ready FIFO. -/
theorem follows_status {p : Phase w} (hi : i.rst = false) (h : Models s p)
    (hp : p = .passed ∨ (∃ v, p = .reporting v) ∨ (∃ v, p = .expecting v) ∨ p = .failed) : Follows L s i p := by
  obtain rfl | ⟨v, rfl⟩ | ⟨v, rfl⟩ | rfl := hp
  · obtain ⟨hs, herror, hcount⟩ := h
    cases hready : i.fifoOutReady with
    | false =>
      refine .intro (.refl _) ?_ ⟨?_, ?_, ?_⟩ <;>
        simp [deviceWords, IoStressTest.next, IoStressTest.wires, hs, hready, herror, hcount, hi]
    | true =>
      refine .intro (.quiet .finish) ?_ ⟨?_, ?_, ?_⟩ <;>
        simp [deviceWords, IoStressTest.next, IoStressTest.wires, hs, hready, herror, hcount, hi]
  · obtain ⟨hs, herror, hrnd⟩ := h
    cases hready : i.fifoOutReady with
    | false =>
      refine .intro (.refl _) ?_ ⟨?_, ?_, ?_⟩ <;>
        simp [deviceWords, IoStressTest.next, IoStressTest.wires, nextRnd, hs, hready, herror, hrnd, hi]
    | true =>
      refine .intro (.one (.received (u := i.fifoInData))) ?_ ⟨?_, ?_, ?_⟩ <;>
        simp [deviceWords, IoStressTest.next, IoStressTest.wires, nextRnd, hs, hready, herror, hrnd, hi]
  · obtain ⟨hs, herror, hrnd⟩ := h
    cases hready : i.fifoOutReady with
    | false =>
      refine .intro (.refl _) ?_ ⟨?_, ?_, ?_⟩ <;>
        simp [deviceWords, IoStressTest.next, IoStressTest.wires, nextRnd, hs, hready, herror, hrnd, hi]
    | true =>
      refine .intro (.one .expected) ?_ ⟨.inl ?_, ?_⟩ <;>
        simp [deviceWords, IoStressTest.next, IoStressTest.wires, hs, hready, herror, hrnd, hi]
  · obtain ⟨hs | hs, herror⟩ := h
    · cases hready : i.fifoOutReady <;>
        refine .intro (.refl _) ?_ ⟨?_, ?_⟩ <;>
          simp [deviceWords, IoStressTest.next, IoStressTest.wires, hs, hready, herror, hi]
    · have hwires := wires_idle_still (M := L.val) hs (i := i) (by rw [herror, Bool.not_true, Bool.and_false])
      refine .intro (.refl _) ?_ ⟨.inr ?_, ?_⟩ <;>
        simp [deviceWords, IoStressTest.next, hwires, still, hs, herror, hi]

theorem follows_reading (hi : i.rst = false) (he : i.errorFlag = false) (h : Models s (.reading seed n k)) :
    Follows L s i (.reading seed n k) := by
  obtain ⟨hs | ⟨hs, rfl⟩, herror, hrun⟩ := h
  · by_cases hcount : s.byteCounter = 0
    · have hwires := wires_read_end (M := L.val) (i := i) hs hcount
      refine .intro (.refl _) ?_ ⟨.inr ⟨?_, hrun.zero_iff.mp hcount⟩, ?_, hrun.keep ?_ ?_⟩
      · simp [deviceWords, hwires, still]
      · simp [IoStressTest.next, hwires, hi]
      · simp [IoStressTest.next, hwires, still, herror]
      · simp [IoStressTest.next, hwires, still, hcount]
      · simp [IoStressTest.next, hwires, still, nextRnd]
    have hlt : k < n := Nat.lt_of_le_of_ne hrun.le (mt hrun.zero_iff.mpr hcount)
    have hwires := wires_read (M := L.val) (i := i) hs hcount
    obtain ⟨k', hsent, hnext⟩ : ∃ k', Runs (Step L) (.reading seed n k)
        (if i.fifoOutReady && !s.intStallFlag then [.sent (testWord seed k)] else []) (.reading seed n k') ∧
        Running (s.next L.val i) seed n k' := by
      cases hsends : i.fifoOutReady && !s.intStallFlag with
      | false =>
        rw [hsends] at hwires
        refine ⟨k, .refl _, hrun.keep ?_ ?_⟩
        · exact (byteCounter_next hi).1 (by simp [hwires, still]) (by simp [hwires])
        · simp [IoStressTest.next, hwires, still, nextRnd]
      | true =>
        rw [hsends] at hwires
        refine ⟨k + 1, .one (.send hlt), hrun.advance hlt ?_ ?_⟩
        · exact (byteCounter_next hi).2.1 (by simp [hwires, still]) (by simp [hwires]) hcount
        · simp [IoStressTest.next, hwires, still, nextRnd, he]
    have hemit : (deviceWords w L.val).emit s i =
        (let sent := if i.fifoOutReady && !s.intStallFlag then [.sent (testWord seed k)] else []
        let taken := if i.fifoInValid then [.taken i.fifoInData] else []
        if i.fifoInValid && i.fifoInData == errorWord w then sent ++ taken else taken ++ sent) := by
      rw [← hrun.rndData]
      simp only [deviceWords, hwires, still]
      cases i.fifoInValid <;> cases i.fifoOutReady <;> simp
    cases habort : i.fifoInValid && i.fifoInData == errorWord w with
    | false =>
      have htaken : Runs (Step L) (.reading seed n k) (if i.fifoInValid then [.taken i.fifoInData] else [])
          (.reading seed n k) := by
        cases hvalid : i.fifoInValid with
        | false => exact .refl _
        | true =>
          have hne : i.fifoInData ≠ errorWord w := by
            intro heq
            rw [hvalid, heq, beq_self_eq_true] at habort
            cases habort
          exact .one (.ignore hlt hne)
      rw [habort] at hemit hwires
      refine .intro (htaken.trans hsent) hemit ⟨.inl ?_, ?_, hnext⟩
      · simp [IoStressTest.next, hwires, hi]
      · simp [IoStressTest.next, hwires, herror]
    | true =>
      obtain ⟨hvalid, hword⟩ := Bool.and_eq_true_iff.mp habort
      rw [habort, hvalid, eq_of_beq hword] at hemit
      rw [habort] at hwires
      refine .intro (hsent.trans (.one .abort)) hemit ⟨.inr ?_, ?_⟩
      · simp [IoStressTest.next, hwires, hi]
      · simp [IoStressTest.next, hwires, hi]
  · cases hvalid : i.fifoInValid with
    | false =>
      have hwires := wires_read_verdict_still (M := L.val) hs hvalid
      refine .intro (.refl _) ?_ ⟨.inr ⟨?_, rfl⟩, ?_, hrun.keep ?_ ?_⟩
      · simp [deviceWords, hwires, still]
      · simp [IoStressTest.next, hwires, still, hs, hi]
      · simp [IoStressTest.next, hwires, still, herror]
      · simp [IoStressTest.next, hwires, still, hi, hrun.zero_iff.mpr rfl]
      · simp [IoStressTest.next, hwires, still, nextRnd]
    | true =>
      have hwires := wires_read_verdict (M := L.val) hs hvalid
      have hemit : (deviceWords w L.val).emit s i = [.taken i.fifoInData] := by
        simp [deviceWords, hwires, still, hvalid]
      by_cases hword : i.fifoInData = successWord w
      · refine .intro (.one .confirm) (hword ▸ hemit) ⟨?_, ?_, ?_⟩
        · simp [IoStressTest.next, hwires, hi]
        · simp [IoStressTest.next, hwires, herror, hword]
        · simp [IoStressTest.next, hwires, still, hi, hrun.zero_iff.mpr rfl]
      · refine .intro (.one (.deny hword)) hemit ⟨.inr ?_, ?_⟩
        · simp [IoStressTest.next, hwires, hi]
        · simp [IoStressTest.next, hwires, hi, hword]

/-- Every cycle of the device without a reset and without an induced error follows the protocol. -/
theorem follows {p : Phase w} (hi : i.rst = false ∧ i.errorFlag = false) (h : Models s p) : Follows L s i p := by
  obtain ⟨hrst, herror⟩ := hi
  cases p with
  | idle => exact follows_idle hrst h
  | seeding => exact follows_seeding hrst h
  | counting => exact follows_counting hrst h
  | writing => exact follows_writing hrst herror h
  | passed => exact follows_status hrst h (.inl rfl)
  | mismatch => exact h.elim
  | reporting => exact follows_status hrst h (.inr (.inl ⟨_, rfl⟩))
  | expecting => exact follows_status hrst h (.inr (.inr (.inl ⟨_, rfl⟩)))
  | reading => exact follows_reading hrst herror h
  | failed => exact follows_status hrst h (.inr (.inr (.inr rfl)))

/-- A run of the device is a run of the protocol, from the phase of its registers to the phase of its registers. -/
theorem follows_run {p : Phase w} {is : List (IoIn w)} (h : Models s p)
    (his : ∀ i ∈ is, i.rst = false ∧ i.errorFlag = false) :
    ∃ p', Runs (Step L) p ((deviceWords w L.val).emitted s is) p' ∧ Models ((deviceWords w L.val).after s is) p' := by
  exact Transducer.refines is (fun i hi s p h => follows (his i hi) h) h

end
end Phase
end Glip.StressTest
