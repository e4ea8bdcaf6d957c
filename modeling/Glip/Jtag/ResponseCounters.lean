import Glip.CircularBuffer.QueueRefinement
import Glip.Jtag.PollThread
import Glip.Jtag.HostRequests

/-! What `parse_jtag_resp` does with the buffers of the host, whatever the response says. -/
namespace Glip.Jtag
open Foundation CircularBuffer

structure HostBuffers where
  writeBuf : List UInt8
  readBuf : List UInt8
  deriving DecidableEq

/-- `to_bytes`; the product is of type `unsigned int`. -/
def toBytes (wordWidth words : Nat) : Nat := unsignedOf 32 (words * wordWidth : Nat)

def counterAt (wordWidth : Nat) (rx : Block) (off : Nat) : Option Nat :=
  (rx.load off wordWidth).map fun word => (copyFromWord wordWidth (word.map UInt8.toBitVec)).toNat

/-- `cbuf_write` out of the receive buffer: it looks at the bytes when it has found room for them. -/
def writeFrom (rx : Block) (off n : Nat) (q : List UInt8) : Option (List UInt8) :=
  if n > bufferSize - q.length then some q
  else (rx.load off n).map fun data => (Queue.perform bufferSize q (.write data)).2

/-- `parse_jtag_resp` of a response that fills `respSize` bytes of the receive buffer, with the two counters. -/
def HostBuffers.parseJtagResp (wordWidth : Nat) (rx : Block) (respSize : Nat) (b : HostBuffers) :
    Option (HostBuffers × Nat × Nat) := do
  let ackedWords ← counterAt wordWidth rx (respSize - wordWidth * 2)
  let readWords ← counterAt wordWidth rx (respSize - wordWidth)
  let discarded := Queue.perform bufferSize b.writeBuf (.discard (toBytes wordWidth ackedWords))
  let readBuf ← writeFrom rx (wordWidth * 2) (toBytes wordWidth readWords) b.readBuf
  pure (⟨discarded.2, readBuf⟩, ackedWords, readWords)

/-- A response that takes out no more than the words of its request, and puts in no more than its words to read,
which are those at the beginning of the payload. -/
def HandledWell (wordWidth wrWords rdWords : Nat) (rx : Block) (respSize : Nat) (b : HostBuffers) : Prop :=
  ∃ b' counters, b.parseJtagResp wordWidth rx respSize = some (b', counters) ∧
    (∃ n ≤ wrWords * wordWidth, b'.writeBuf = b.writeBuf.drop n) ∧
    ∃ n ≤ rdWords * wordWidth, b'.readBuf = b.readBuf ++ segment rx.byte (wordWidth * 2) n

def ackedWords (wordWidth : Nat) (rx : Block) (respSize : Nat) : Nat :=
  (copyFromWord wordWidth ((segment rx.byte (respSize - wordWidth * 2) wordWidth).map UInt8.toBitVec)).toNat

def readWords (wordWidth : Nat) (rx : Block) (respSize : Nat) : Nat :=
  (copyFromWord wordWidth ((segment rx.byte (respSize - wordWidth) wordWidth).map UInt8.toBitVec)).toNat

section Buffers
variable {w wr rd n m off : Nat} {rx : Block} {q : List UInt8} {b : HostBuffers}

theorem length_copyToWord (w : Nat) (value : BitVec 32) : (copyToWord w value).length = w := by
  unfold copyToWord
  split
  · simp
  · simp

/-- The request, and so its response, has two words in front of the payload and two behind it. -/
theorem length_buildJtagReq {writeBuf req : List Byte} (h : buildJtagReq w wr rd writeBuf = some req) :
    req.length = (max wr rd + 4) * w := by
  rw [buildJtagReq] at h
  split at h
  · rename_i hle
    obtain rfl := Option.some.inj h
    have hmul : wr * w + 4 * w ≤ (max wr rd + 4) * w := by
      rw [← Nat.add_mul]
      exact Nat.mul_le_mul_right w (by omega)
    simp only [List.length_append, length_copyToWord, List.length_take_of_le hle, List.length_replicate]
    omega
  · cases h

theorem discard_cases : (Queue.perform bufferSize q (.discard n)).2 = if n ≤ q.length then q.drop n else q := by
  rw [Queue.perform]
  split <;> rfl

/-- A discard takes at most `m` bytes exactly if it does not ask for more, or for more than there are. -/
theorem discard_iff :
    (∃ k ≤ m, (Queue.perform bufferSize q (.discard n)).2 = q.drop k) ↔ n ≤ m ∨ q.length < n := by
  rw [discard_cases]
  constructor
  · rintro ⟨k, hk, heq⟩
    by_contra hno
    rw [if_pos (by omega)] at heq
    have hlen := congrArg List.length heq
    rw [List.length_drop, List.length_drop] at hlen
    omega
  · rintro (hle | hlt)
    · split
      · exact ⟨n, hle, rfl⟩
      · exact ⟨0, Nat.zero_le m, rfl⟩
    · rw [if_neg (by omega)]
      exact ⟨0, Nat.zero_le m, rfl⟩

theorem write_room {data : List UInt8} (h : data.length ≤ bufferSize - q.length) :
    (Queue.perform bufferSize q (.write data)).2 = q ++ data := by
  rw [Queue.perform]
  split
  · rfl
  · have hnil : data = [] := List.eq_nil_of_length_eq_zero (by omega)
    rw [hnil, List.append_nil]

/-- A write adds at most `m` bytes exactly if it does not ask for more, or for more than there is room. -/
theorem writeFrom_iff (hin : off + m ≤ rx.len) :
    (∃ q', writeFrom rx off n q = some q' ∧ ∃ k ≤ m, q' = q ++ segment rx.byte off k) ↔
      n ≤ m ∨ bufferSize - q.length < n := by
  unfold writeFrom
  constructor
  · rintro ⟨q', hq', k, hk, rfl⟩
    by_contra hno
    rw [if_neg (by omega)] at hq'
    obtain ⟨data, hdata, heq⟩ := Option.map_eq_some_iff.mp hq'
    obtain ⟨-, rfl⟩ := Block.load_some hdata
    rw [write_room (by rw [segment_length]; omega), List.append_cancel_left_eq] at heq
    have hlen := congrArg List.length heq
    rw [segment_length, segment_length] at hlen
    omega
  · rintro (hle | hlt)
    · split
      · exact ⟨q, rfl, 0, Nat.zero_le m, (List.append_nil q).symm⟩
      · refine ⟨q ++ segment rx.byte off n, ?_, n, hle, rfl⟩
        rw [Block.load_eq (by omega), Option.map_some, write_room (by rw [segment_length]; omega)]
    · rw [if_pos hlt]
      exact ⟨q, rfl, 0, Nat.zero_le m, (List.append_nil q).symm⟩

end Buffers

/-- A response is handled well exactly if each of its counters stays within the request, or asks for more than the
buffer holds or has room for. -/
theorem response_counters_iff {w wr rd : Nat} {writeBuf req : List Byte} (hreq : buildJtagReq w wr rd writeBuf = some req)
    {rx : Block} (hrx : req.length ≤ rx.len) (b : HostBuffers) :
    HandledWell w wr rd rx req.length b ↔
      (toBytes w (ackedWords w rx req.length) ≤ wr * w ∨ b.writeBuf.length < toBytes w (ackedWords w rx req.length)) ∧
        (toBytes w (readWords w rx req.length) ≤ rd * w ∨
          bufferSize - b.readBuf.length < toBytes w (readWords w rx req.length)) := by
  have hsize : req.length = max wr rd * w + 4 * w := by rw [length_buildJtagReq hreq, Nat.add_mul]
  have hpayload : rd * w ≤ max wr rd * w := Nat.mul_le_mul_right w (Nat.le_max_right wr rd)
  have hacked : counterAt w rx (req.length - w * 2) = some (ackedWords w rx req.length) := by
    rw [counterAt, Block.load_eq (by omega), Option.map_some, ackedWords]
  have hread : counterAt w rx (req.length - w) = some (readWords w rx req.length) := by
    rw [counterAt, Block.load_eq (by omega), Option.map_some, readWords]
  rw [← discard_iff, ← writeFrom_iff (show w * 2 + rd * w ≤ rx.len by omega)]
  simp only [HandledWell, HostBuffers.parseJtagResp, hacked, hread, Option.bind_eq_bind, Option.bind_some]
  constructor
  · rintro ⟨b', counters, hparse, hdiscard, happend⟩
    obtain ⟨q', hq', heq⟩ := Option.bind_eq_some_iff.mp hparse
    cases heq
    exact ⟨hdiscard, q', hq', happend⟩
  · rintro ⟨hdiscard, q', hq', happend⟩
    rw [hq']
    exact ⟨_, _, rfl, hdiscard, happend⟩

/-- A target that takes the word that it is sent and gives one. -/
theorem response_counters_iff_one :
    let rx : Block := ⟨10, fun i => ([0, 0, 0, 0, 7, 8, 1, 0, 1, 0] : List UInt8).getD i 0⟩
    HandledWell 2 1 1 rx 10 ⟨[1, 2, 3, 4, 5, 6, 7, 8], []⟩ := by
  intro rx
  have hreq : buildJtagReq 2 1 1 [1, 2, 3, 4, 5, 6, 7, 8] = some [1, 0, 1, 0, 1, 2, 0, 0, 0, 0] := by decide
  have hrx : [1, 0, 1, 0, 1, 2, 0, 0, 0, 0].length ≤ rx.len := by decide
  exact (response_counters_iff hreq hrx _).mpr (by decide)

/-- A response to the same request that acknowledges and gives three words: two words that were not sent are
dropped, and the counters are read as data. With 15003 words the receive buffer, even of the size with which
`poll_thread` begins, is left. -/
theorem response_counters_fail :
    let rx : Block := ⟨10, fun i => ([0, 0, 0, 0, 7, 8, 3, 0, 3, 0] : List UInt8).getD i 0⟩
    let rx' : Block := ⟨30008, fun i => ([0, 0, 0, 0, 7, 8, 1, 0, 155, 58] : List UInt8).getD i 0⟩
    let b : HostBuffers := ⟨[1, 2, 3, 4, 5, 6, 7, 8], []⟩
    buildJtagReq 2 1 1 [1, 2, 3, 4, 5, 6, 7, 8] = some [1, 0, 1, 0, 1, 2, 0, 0, 0, 0] ∧
      b.parseJtagResp 2 rx 10 = some (⟨[7, 8], [7, 8, 3, 0, 3, 0]⟩, 3, 3) ∧ ¬HandledWell 2 1 1 rx 10 b ∧
      b.parseJtagResp 2 rx' 10 = none := by
  intro rx rx' b
  have hparse : b.parseJtagResp 2 rx 10 = some (⟨[7, 8], [7, 8, 3, 0, 3, 0]⟩, 3, 3) := by decide
  refine ⟨by decide, hparse, ?_, by decide⟩
  rintro ⟨b', counters, heq, ⟨n, hn, hdrop⟩, -⟩
  cases hparse.symm.trans heq
  have hlen := congrArg List.length hdrop
  simp only [b, List.length_drop, List.length_cons, List.length_nil] at hlen
  omega

end Glip.Jtag
