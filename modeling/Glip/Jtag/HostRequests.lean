import Glip.Jtag.InputTransfer
import Glip.Jtag.OpenocdFields

/-! The requests that the host builds out of bytes, and the words that they are for a target
with words of one to four bytes. -/
namespace Glip.Jtag
open Foundation

structure ScanGaps where
  idle : List Bool
  capture : Bool
  exit : List Bool
  update : Bool

def ScanGaps.scan (g : ScanGaps) (bits : List Bool) : List TapIn :=
  g.idle.map .quiet ++ [.captureDr g.capture] ++ bits.map .bit ++ g.exit.map .quiet ++ [.updateDr g.update]

def drscanBits (req : List Byte) : List Bool := (jtagDrscanWrite req).flatMap openocdShift

def bytesOf (n : Nat) (bits : List Bool) : List Byte := (List.range n).map fun k => ofBits 8 (bits.drop (8 * k))

/-- `copy_to_word`; a word of more than four bytes has a single byte of the value. -/
def copyToWord (wordWidth : Nat) (value : BitVec 32) : List Byte :=
  if 1 ≤ wordWidth ∧ wordWidth ≤ 4 then (List.range wordWidth).map fun i => value.extractLsb' (8 * i) 8
  else (List.replicate wordWidth 0).set (wordWidth - 4) (value.extractLsb' 0 8)

def copyFromWord (wordWidth : Nat) (word : List Byte) : BitVec 32 :=
  let cp := min wordWidth 4
  ofBits 32 (((word.drop (wordWidth - cp)).take cp).flatMap bitsOf)

/-- `build_jtag_req` on the bytes of the write buffer, which has to hold the words that are to
be written; the request buffer is grown before until the request fits. -/
def buildJtagReq (wordWidth wrWords rdWords : Nat) (writeBuf : List Byte) : Option (List Byte) :=
  let wrBytes := wrWords * wordWidth
  let transferLenBytes := (max wrWords rdWords + 4) * wordWidth
  if wrBytes ≤ writeBuf.length then
    some (copyToWord wordWidth (BitVec.ofNat 32 wrWords) ++ copyToWord wordWidth (BitVec.ofNat 32 rdWords) ++
      writeBuf.take wrBytes ++ List.replicate (transferLenBytes - 2 * wordWidth - wrBytes) 0)
  else none

def readBytes (wordWidth words : Nat) (resp : List Byte) : List Byte := (resp.drop (wordWidth * 2)).take (words * wordWidth)

def wordsOf (n : Nat) : Nat → List Byte → List (List Byte)
  | 0, _ => []
  | k + 1, bytes => bytes.take n :: wordsOf n k (bytes.drop n)

@[simp] theorem length_wordsOf (n k : Nat) (bytes : List Byte) : (wordsOf n k bytes).length = k := by
  induction k generalizing bytes with
  | zero => rfl
  | succ k ih => rw [wordsOf, List.length_cons, ih]

theorem flatten_wordsOf (n k : Nat) (bytes : List Byte) : (wordsOf n k bytes).flatten = bytes.take (k * n) := by
  induction k generalizing bytes with
  | zero => rw [wordsOf, Nat.zero_mul, List.take_zero, List.flatten_nil]
  | succ k ih => rw [wordsOf, List.flatten_cons, ih, Nat.succ_mul, Nat.add_comm, List.take_add]

theorem length_of_mem_wordsOf {n k : Nat} {bytes word : List Byte} (hword : word ∈ wordsOf n k bytes)
    (hlen : k * n ≤ bytes.length) : word.length = n := by
  induction k generalizing bytes with
  | zero => cases hword
  | succ k ih =>
    rw [Nat.succ_mul] at hlen
    rcases List.mem_cons.mp hword with rfl | hword
    · rw [List.length_take]
      omega
    · exact ih hword (by rw [List.length_drop]; omega)

/-- The words that begin at a multiple of their size. -/
theorem mem_wordsOf {n k : Nat} {bytes word : List Byte} :
    word ∈ wordsOf n k bytes ↔ ∃ j < k, (bytes.drop (j * n)).take n = word := by
  induction k generalizing bytes with
  | zero => simp [wordsOf]
  | succ k ih =>
    rw [wordsOf, List.mem_cons, ih]
    constructor
    · rintro (rfl | ⟨j, hj, rfl⟩)
      · exact ⟨0, Nat.succ_pos k, by rw [Nat.zero_mul, List.drop_zero]⟩
      · exact ⟨j + 1, Nat.succ_lt_succ hj, by rw [List.drop_drop, Nat.succ_mul, Nat.add_comm]⟩
    · rintro ⟨_ | j, hj, rfl⟩
      · exact .inl (by rw [Nat.zero_mul, List.drop_zero])
      · exact .inr ⟨j, Nat.lt_of_succ_lt_succ hj, by rw [List.drop_drop, Nat.succ_mul, Nat.add_comm]⟩

def littleEndian (W : Nat) (bytes : List Byte) : BitVec W := ofBits W (bytes.flatMap bitsOf)

/-- The bits of a request are those of its bytes, in their order. -/
theorem drscanBits_eq (req : List Byte) : drscanBits req = req.flatMap bitsOf := shift_jtagDrscanWrite req

theorem flatMap_bytesOf {n : Nat} {bits : List Bool} (h : bits.length = 8 * n) : (bytesOf n bits).flatMap bitsOf = bits := by
  have htake (k : Nat) (hk : k ≤ n) : (bytesOf k bits).flatMap bitsOf = bits.take (8 * k) := by
    induction k with
    | zero => rfl
    | succ k ih =>
      rw [bytesOf] at ih ⊢
      rw [List.range_succ, List.map_append, List.flatMap_append, ih (by omega), List.map_singleton, List.flatMap_singleton,
        bitsOf_ofBits_take (by rw [List.length_drop]; omega), Nat.mul_succ, List.take_add]
  rw [htake n (Nat.le_refl n), ← h, List.take_length]

theorem flatMap_drop (bytes : List Byte) (k : Nat) : (bytes.drop k).flatMap bitsOf = (bytes.flatMap bitsOf).drop (8 * k) := by
  induction k generalizing bytes with
  | zero => rfl
  | succ k ih =>
    cases bytes with
    | nil => simp
    | cons b bytes =>
      rw [List.drop_succ_cons, ih, List.flatMap_cons, Nat.mul_succ, Nat.add_comm, ← List.drop_drop,
        List.drop_left' (length_bitsOf b)]

theorem flatMap_take (bytes : List Byte) (k : Nat) : (bytes.take k).flatMap bitsOf = (bytes.flatMap bitsOf).take (8 * k) := by
  have hsplit := congrArg (List.flatMap bitsOf) (List.take_append_drop k bytes)
  rw [List.flatMap_append, flatMap_drop] at hsplit
  have hsplit' := List.take_append_drop (8 * k) (bytes.flatMap bitsOf)
  exact List.append_cancel_right (hsplit.trans hsplit'.symm)

theorem bitsOf_littleEndian {n : Nat} {bytes : List Byte} (h : bytes.length = n) :
    bitsOf (littleEndian (8 * n) bytes) = bytes.flatMap bitsOf :=
  bitsOf_ofBits ((length_flatMap_bitsOf bytes).trans (congrArg (8 * ·) h))

theorem bitsOf_words {n k : Nat} {bytes : List Byte} (hlen : k * n ≤ bytes.length) :
    ((wordsOf n k bytes).map (littleEndian (8 * n))).flatMap bitsOf = (bytes.take (k * n)).flatMap bitsOf := by
  have hwords : ∀ word ∈ wordsOf n k bytes, bitsOf (littleEndian (8 * n) word) = word.flatMap bitsOf :=
    fun word hword => bitsOf_littleEndian (length_of_mem_wordsOf hword hlen)
  rw [List.flatMap_map, List.flatMap_congr hwords, ← flatten_wordsOf]
  induction wordsOf n k bytes with
  | nil => rfl
  | cons word words ih => rw [List.flatMap_cons, ih, List.flatten_cons, List.flatMap_append]

/-- The lowest bytes of a value, from the least significant one. -/
theorem flatMap_extracts {w : Nat} (v : BitVec w) {k : Nat} (h : 8 * k ≤ w) :
    ((List.range k).map fun i => v.extractLsb' (8 * i) 8).flatMap bitsOf = natBits (8 * k) v.toNat := by
  induction k with
  | zero => rfl
  | succ k ih =>
    rw [List.range_succ, List.map_append, List.flatMap_append, ih (by omega), Nat.mul_succ, natBits_add]
    congr 1
    rw [List.map_singleton, List.flatMap_singleton]
    apply List.map_congr_left
    intro j hj
    rw [bitAt, BitVec.getLsbD_extractLsb', decide_eq_true (List.mem_range.mp hj), Bool.true_and]
    rfl

theorem bitsOf_copyToWord {wordWidth : Nat} (h : 1 ≤ wordWidth ∧ wordWidth ≤ 4) (n : Nat) :
    (copyToWord wordWidth (BitVec.ofNat 32 n)).flatMap bitsOf = bitsOf (BitVec.ofNat (8 * wordWidth) n) := by
  rw [copyToWord, if_pos h, flatMap_extracts _ (by omega), bitsOf_ofNat]
  apply List.map_congr_left
  intro j hj
  have hj : j < 8 * wordWidth := List.mem_range.mp hj
  rw [BitVec.testBit_toNat, BitVec.getLsbD_ofNat, decide_eq_true (by omega), Bool.true_and]

theorem bitsOf_zeros (n k : Nat) :
    (List.replicate (k * n) (0 : Byte)).flatMap bitsOf = (List.replicate k (0 : BitVec (8 * n))).flatMap bitsOf := by
  have hfalse (w : Nat) : bitsOf (0 : BitVec w) = List.replicate w false := by
    apply List.ext_getElem (by simp)
    intro i hi hi'
    simp [bitAt]
  have hall (w m : Nat) : (List.replicate m (0 : BitVec w)).flatMap bitsOf = List.replicate (m * w) false := by
    induction m with
    | zero => rw [Nat.zero_mul]; rfl
    | succ m ih =>
      rw [List.replicate_succ, List.flatMap_cons, ih, hfalse, Nat.succ_mul, Nat.add_comm, List.replicate_append_replicate]
  rw [hall, hall, Nat.mul_assoc, Nat.mul_comm n]

/-- The scan of a request for a target with words of one to four bytes: the words of the
header, and the bytes of the write buffer in words whose first byte is the least significant. -/
theorem buildJtagReq_bits {wordWidth wr rd : Nat} (h : 1 ≤ wordWidth ∧ wordWidth ≤ 4) {writeBuf req : List Byte}
    (hreq : buildJtagReq wordWidth wr rd writeBuf = some req) :
    req.flatMap bitsOf =
      (requestBody rd ((wordsOf wordWidth wr writeBuf).map (littleEndian (8 * wordWidth))) ++ [0, 0]).flatMap bitsOf := by
  rw [buildJtagReq] at hreq
  split at hreq
  case isFalse => cases hreq
  case isTrue hle =>
    have hrest : (max wr rd + 4) * wordWidth - 2 * wordWidth - wr * wordWidth = (max wr rd - wr + 2) * wordWidth := by
      rw [← Nat.sub_mul, ← Nat.sub_mul]
      congr 1
      omega
    rw [← Option.some.inj hreq, requestBody, hrest]
    simp only [List.flatMap_append, List.flatMap_cons, List.length_map, length_wordsOf, bitsOf_copyToWord h,
      bitsOf_words hle, bitsOf_zeros, List.append_assoc, List.cons_append, List.replicate_add]
    rfl

end Glip.Jtag
