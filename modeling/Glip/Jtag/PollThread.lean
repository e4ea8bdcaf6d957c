import Glip.Foundation.MachineInteger
import Glip.Jtag.Discovery
import Mathlib.Order.Defs.LinearOrder

/-! The sizes that `poll_thread` of backend_jtag.c puts into the headers of its requests. -/
namespace Glip.Jtag
open Foundation

def maxPayloadWords : Nat := 15000

/-- What a pass of the loop meets: the levels of the two buffers in bytes, the numbers of words
that the response has, and what `1 << 32` yields, which C leaves undefined. -/
structure PollRound where
  writeFill : Nat
  readFree : Nat
  ackedWords : Nat
  readWords : Nat
  overshift : Int

structure PollRequest where
  wrWords : Nat
  rdWords : Nat
  writeFill : Nat
  readFree : Nat
  deriving DecidableEq

def toWords (wordWidth bytes : Nat) : Nat := unsignedOf 32 (bytes / wordWidth : Nat)

def calcPayloadLen (wordWidth wanted writeFill readFree : Nat) : Nat × Nat :=
  let availWr := toWords wordWidth writeFill
  let availRd := toWords wordWidth readFree
  let payloadLen := uintMin wanted (uintMax availWr availRd)
  (uintMin availWr payloadLen, uintMin availRd payloadLen)

/-- The largest value that is allowed inside `WR_REQ_SIZE`, of type `int`. -/
def headerLimit (wordWidth : Nat) (overshift : Int) : Int :=
  match shiftOne (8 * wordWidth) with
  | some ones => ones - 2
  | none => overshift - 2

/-- `wanted_words` scaled by what the target took and gave; the products with 0.9, 0.5, 1.5
and 0.3 are compared and cut off as exact ones would be. -/
def scaleWanted (wanted wrWords rdWords : Nat) (r : PollRound) : Nat :=
  if 10 * r.ackedWords > 9 * wrWords ∨ 10 * r.readWords ≥ 9 * rdWords then wanted * 3 / 2
  else if 2 * r.ackedWords ≤ wrWords ∧ 2 * r.readWords ≤ rdWords then wanted * 3 / 10
  else wanted

def nextWanted (wordWidth minWantedWords wanted wrWords rdWords : Nat) (r : PollRound) : Nat :=
  let wanted := scaleWanted wanted wrWords rdWords r
  let wanted := uintMin wanted (headerLimit wordWidth r.overshift)
  let wanted := uintMax minWantedWords wanted
  uintMin wanted maxPayloadWords

def pollThread (wordWidth targetBufferSize : Nat) : Transducer Nat PollRound PollRequest where
  next wanted r :=
    let len := calcPayloadLen wordWidth wanted r.writeFill r.readFree
    nextWanted wordWidth targetBufferSize wanted len.1 len.2 r
  emit wanted r :=
    let len := calcPayloadLen wordWidth wanted r.writeFill r.readFree
    [⟨len.1, len.2, r.writeFill, r.readFree⟩]

theorem pollThread_next (wordWidth targetBufferSize wanted : Nat) (r : PollRound) :
    (pollThread wordWidth targetBufferSize).next wanted r = nextWanted wordWidth targetBufferSize wanted
      (calcPayloadLen wordWidth wanted r.writeFill r.readFree).1
      (calcPayloadLen wordWidth wanted r.writeFill r.readFree).2 r := by
  simp only [pollThread]

def PollRound.Allowed (r : PollRound) : Prop := r.writeFill ≤ bufferSize ∧ r.readFree ≤ bufferSize

structure PollRequest.Fits (wordWidth : Nat) (q : PollRequest) : Prop where
  wrReqSize : q.wrWords < 2 ^ (8 * wordWidth)
  rdReqSize : q.rdWords < 2 ^ (8 * wordWidth)
  not_ones : q.wrWords ≠ 2 ^ (8 * wordWidth) - 1
  available : q.wrWords * wordWidth ≤ q.writeFill
  room : q.rdWords * wordWidth ≤ q.readFree

section Round
variable {w m wanted : Nat} {r : PollRound}

theorem toWords_eq {bytes : Nat} (h : bytes ≤ bufferSize) : toWords w bytes = bytes / w := by
  have hle := Nat.div_le_self bytes w
  rw [bufferSize] at h
  exact unsignedOf_eq (by omega)

/-- The sizes are the minimum of the words that there are and of `wanted_words`. -/
theorem calcPayloadLen_eq (hr : r.Allowed) (hwanted : wanted < 2 ^ 31) :
    calcPayloadLen w wanted r.writeFill r.readFree =
      (min (r.writeFill / w) wanted, min (r.readFree / w) wanted) := by
  have hwr := Nat.div_le_self r.writeFill w
  have hrd := Nat.div_le_self r.readFree w
  obtain ⟨hfill, hfree⟩ := hr
  have hwords := toWords_eq (w := w) hfill
  have hwords' := toWords_eq (w := w) hfree
  rw [bufferSize] at hfill hfree
  simp only [calcPayloadLen, hwords, hwords']
  rw [uintMax_eq (by omega) (by omega), uintMin_eq hwanted (by omega), uintMin_eq (by omega) (by omega),
    uintMin_eq (by omega) (by omega)]
  congr 1 <;> omega

/-- Whatever the limit is, `wanted_words` stays a positive `int`. -/
theorem nextWanted_le (hm : m < 2 ^ 31) (wr rd : Nat) : nextWanted w m wanted wr rd r ≤ maxPayloadWords := by
  have hm' := signedOf_natCast (w := 32) (n := m) (by omega)
  have hcap := signedOf_natCast (w := 32) (n := maxPayloadWords) (by decide)
  rw [nextWanted, uintMin, signedOf_uintMax, hm', hcap]
  have hcast : ∃ k : Nat, min (max (m : Int) (signedOf 32 (uintMin (scaleWanted wanted wr rd r)
      (headerLimit w r.overshift)))) maxPayloadWords = k ∧ k ≤ maxPayloadWords := by
    refine ⟨(min (max (m : Int) (signedOf 32 (uintMin (scaleWanted wanted wr rd r)
      (headerLimit w r.overshift)))) maxPayloadWords).toNat, ?_, ?_⟩ <;> omega
  obtain ⟨k, hk, hle⟩ := hcast
  rw [hk, unsignedOf_eq (Nat.lt_of_le_of_lt hle (by decide))]
  exact hle

/-- A target with words of one byte: the limit of the header holds if the minimum keeps it. -/
theorem nextWanted_byte (hm : m ≤ 254) (hwanted : wanted ≤ 254) (wr rd : Nat) : nextWanted 1 m wanted wr rd r ≤ 254 := by
  have hscale : scaleWanted wanted wr rd r ≤ 381 := by
    unfold scaleWanted
    split_ifs <;> omega
  have hlimit : headerLimit 1 r.overshift = (254 : Nat) := rfl
  have hmin : uintMin (scaleWanted wanted wr rd r) (254 : Nat) = min (scaleWanted wanted wr rd r) 254 :=
    uintMin_eq (by omega) (by omega)
  have hmax : uintMax m (min (scaleWanted wanted wr rd r) 254 : Nat) = max m (min (scaleWanted wanted wr rd r) 254) :=
    uintMax_eq (by omega) (by omega)
  rw [nextWanted, hlimit, hmin, hmax, maxPayloadWords, uintMin_eq (by omega) (by omega)]
  omega

end Round

structure Wanted (w wanted : Nat) : Prop where
  lt : wanted < 2 ^ 31
  byte : w = 1 → wanted ≤ 254

/-- A pass of the loop. -/
theorem Wanted.emit {w wanted : Nat} (hw : 1 ≤ w ∧ w ≤ 4) (h : Wanted w wanted) {n : Nat} {r : PollRound}
    (hr : r.Allowed) : ∀ q ∈ (pollThread w (2 ^ n)).emit wanted r, q.Fits w := by
  intro q hq
  have hwr := Nat.div_le_self r.writeFill w
  have hrd := Nat.div_le_self r.readFree w
  have hlen := calcPayloadLen_eq (w := w) hr h.lt
  simp only [pollThread, hlen, List.mem_singleton] at hq
  subst hq
  obtain ⟨hfill, hfree⟩ := hr
  rw [bufferSize] at hfill hfree
  have hmul := Nat.div_mul_le_self r.writeFill w
  have hmul' := Nat.div_mul_le_self r.readFree w
  have hsize : min (r.writeFill / w) wanted + 1 < 2 ^ (8 * w) ∧ min (r.readFree / w) wanted < 2 ^ (8 * w) := by
    have hbyte := h.byte
    obtain rfl | rfl | rfl | rfl : w = 1 ∨ w = 2 ∨ w = 3 ∨ w = 4 := by omega
    · have := hbyte rfl
      omega
    all_goals omega
  refine ⟨?_, hsize.2, ?_, ?_, ?_⟩
  · exact Nat.lt_of_succ_lt hsize.1
  · dsimp only
    omega
  · exact Nat.le_trans (Nat.mul_le_mul_right w (Nat.min_le_left ..)) hmul
  · exact Nat.le_trans (Nat.mul_le_mul_right w (Nat.min_le_left ..)) hmul'

theorem Wanted.next {w wanted n : Nat} (h : Wanted w wanted) (hn : n ≤ 30) (hbyte : w = 1 → n ≤ 7) (r : PollRound) :
    Wanted w ((pollThread w (2 ^ n)).next wanted r) := by
  have hpow : 2 ^ n < 2 ^ 31 := Nat.pow_lt_pow_right (by decide) (by omega)
  rw [pollThread_next]
  constructor
  · exact Nat.lt_of_le_of_lt (nextWanted_le hpow _ _) (by decide)
  · rintro rfl
    have hsmall : 2 ^ n ≤ 2 ^ 7 := Nat.pow_le_pow_right (by decide) (hbyte rfl)
    exact nextWanted_byte (Nat.le_trans hsmall (by decide)) (h.byte rfl) _ _

/-- In every run all requests fit, unless words of one byte meet a buffer of 256 words or more. -/
theorem poll_requests_fit_iff {w n : Nat} (hw : 1 ≤ w ∧ w ≤ 4) (hn : n ≤ 30) :
    (∀ rounds : List PollRound, (∀ r ∈ rounds, r.Allowed) →
      ∀ q ∈ (pollThread w (2 ^ n)).emitted (2 ^ n) rounds, q.Fits w) ↔ (w = 1 → n ≤ 7) := by
  have hpow : 2 ^ n < 2 ^ 31 := Nat.pow_lt_pow_right (by decide) (by omega)
  constructor
  · rintro h rfl
    by_contra hlarge
    have hbig : 2 ^ 8 ≤ 2 ^ n := Nat.pow_le_pow_right (by decide) (by omega)
    -- the first request asks for as many words as the target has
    let r : PollRound := ⟨0, bufferSize, 0, 0, 0⟩
    have hr : r.Allowed := ⟨Nat.zero_le _, Nat.le_refl _⟩
    have hlen := calcPayloadLen_eq (w := 1) hr hpow
    have hfits := h [r] (by simpa using hr) ⟨_, _, r.writeFill, r.readFree⟩ (List.mem_singleton.mpr rfl)
    have hread := hfits.rdReqSize
    rw [hlen] at hread
    simp only [r, bufferSize] at hread
    omega
  · intro hbyte rounds
    have hwanted : Wanted w (2 ^ n) := by
      refine ⟨hpow, fun hone => ?_⟩
      have hsmall : 2 ^ n ≤ 2 ^ 7 := Nat.pow_le_pow_right (by decide) (hbyte hone)
      omega
    generalize hm : (pollThread w (2 ^ n)) = m
    generalize 2 ^ n = wanted at hwanted
    induction rounds generalizing wanted with
    | nil => exact fun _ q hq => absurd hq (by simp)
    | cons r rounds ih =>
      intro hallowed q hq
      rw [Transducer.emitted_cons, List.mem_append] at hq
      rcases hq with hq | hq
      · exact hwanted.emit hw (hallowed r (.head rounds)) q (hm ▸ hq)
      · exact ih (m.next wanted r) (hm ▸ hwanted.next hn hbyte r) (fun r' hr' => hallowed r' (.tail r hr')) q hq

/-- A target with words of one byte and a buffer of 256 words is asked for 256 words, which is
`0` in the word of the header. -/
theorem poll_request_too_large :
    let r : PollRound := ⟨0, bufferSize, 0, 0, 0⟩
    r.Allowed ∧ (pollThread 1 (2 ^ 8)).emitted (2 ^ 8) [r] = [⟨0, 256, 0, bufferSize⟩] ∧
      ¬PollRequest.Fits 1 ⟨0, 256, 0, bufferSize⟩ ∧ copyToWord 1 (BitVec.ofNat 32 256) = [0] := by
  intro r
  exact ⟨⟨Nat.zero_le _, Nat.le_refl _⟩, by decide +kernel, fun h => absurd h.rdReqSize (by decide), by decide⟩

/-- Words of two bytes, with a target that takes all that it is sent and then nothing. -/
theorem poll_requests_fit_iff_two :
    let rounds : List PollRound := [⟨60000, bufferSize, 1024, 1024, 0⟩, ⟨58000, 0, 0, 0, 0⟩]
    (pollThread 2 (2 ^ 10)).emitted (2 ^ 10) rounds =
        [⟨1024, 1024, 60000, bufferSize⟩, ⟨1536, 0, 58000, 0⟩] ∧
      ∀ q ∈ (pollThread 2 (2 ^ 10)).emitted (2 ^ 10) rounds, q.Fits 2 := by
  intro rounds
  have hallowed : ∀ r ∈ rounds, r.Allowed := by simp [rounds, PollRound.Allowed, bufferSize]
  exact ⟨by decide +kernel, (poll_requests_fit_iff (by decide) (by decide)).mpr (by decide) rounds hallowed⟩

end Glip.Jtag
