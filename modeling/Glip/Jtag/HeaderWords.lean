import Glip.Jtag.OutputWords
import Glip.Jtag.ResponseCounters

/-! The numbers in the header and in the tail of a scan, as `copy_to_word` and `copy_from_word` of the host
encode them and as the two state machines of the target shift them. -/
namespace Glip.Jtag
open Foundation
variable {w v x : Nat}

/-- A value survives the functions of the host, the target reads it from the header word, and the host reads it
from a word that the target sends. -/
structure HeaderCodec (w v : Nat) : Prop where
  written : (copyToWord w (BitVec.ofNat 32 v)).length = w
  roundTrip : (copyFromWord w (copyToWord w (BitVec.ofNat 32 v))).toNat = v
  target : ∀ (s : InputFsm (8 * w)) (cs : List (TapIn × Bool)), s.inputState = .idle → s.bitCnt = 0 → s.Calm →
    cs.map Prod.fst = ((copyToWord w (BitVec.ofNat 32 v)).flatMap bitsOf).map TapIn.bit →
    ((inputCycles (8 * w)).after s cs).inRegCnt.toNat = v
  accepted : ∀ (s : OutputFsm (8 * w)) (shifted count : BitVec (8 * w)) (cs : List (OutputIn (8 * w))),
    s.outputState = .sendCountWrite → s.bitCnt = 0 → cs.map OutputIn.tap = shiftWord shifted →
    (∀ c ∈ cs, c.inError = false) → (∀ c ∈ cs, c.inWritten = count) → count.toNat = v →
    (copyFromWord w (bytesOf w (s.sent cs))).toNat = v
  read : ∀ (s : OutputFsm (8 * w)) (shifted : BitVec (8 * w)) (cs : List (OutputIn (8 * w))),
    s.outputState = .sendCountRead → s.bitCnt = 0 → cs.map OutputIn.tap = shiftWord shifted →
    s.packetCount.toNat = v → (copyFromWord w (bytesOf w (s.sent cs))).toNat = v

theorem natBits_zero (n : Nat) : natBits n 0 = List.replicate n false := by
  apply List.ext_getElem (by simp [natBits])
  intro i hi hi'
  simp [natBits]

theorem drop_natBits (n k x : Nat) : (natBits n x).drop k = natBits (n - k) (x / 2 ^ k) := by
  apply List.ext_getElem (by simp [natBits])
  intro i hi hi'
  simp [natBits, Nat.testBit_div_two_pow, Nat.add_comm]

theorem toNat_ofBits_natBits {m n : Nat} (h : n ≤ m) (x : Nat) : (ofBits m (natBits n x)).toNat = x % 2 ^ n := by
  apply Nat.eq_of_testBit_eq
  intro i
  rw [Nat.testBit_mod_two_pow, BitVec.testBit_toNat]
  by_cases hi : i < m
  · rw [getLsbD_ofBits _ hi, List.getD_eq_getElem?_getD]
    by_cases hn : i < n
    · simp [natBits, hn]
    · simp [natBits, hn]
  · rw [BitVec.getLsbD_of_ge _ _ (Nat.le_of_not_lt hi), decide_eq_false (by omega), Bool.false_and]

def wordValue (w v : Nat) : Nat := if w ≤ 4 then v else 2 ^ (8 * (w - 4)) * (v % 256)

def fromValue (w x : Nat) : Nat := if w ≤ 4 then x else x / 2 ^ (8 * (w - 4))

private theorem bitsOf_zeroBytes (k : Nat) : (List.replicate k (0 : Byte)).flatMap bitsOf = natBits (8 * k) 0 := by
  induction k with
  | zero => rfl
  | succ k ih =>
    have hzero : bitsOf (0 : Byte) = natBits 8 0 := rfl
    rw [List.replicate_succ, List.flatMap_cons, ih, hzero, natBits_zero, natBits_zero, natBits_zero,
      List.replicate_append_replicate, Nat.mul_succ, Nat.add_comm]

/-- The bits of a word that the host writes. -/
theorem copyToWord_bits (hw : 1 ≤ w) (v : Nat) :
    (copyToWord w (BitVec.ofNat 32 v)).flatMap bitsOf = natBits (8 * w) (wordValue w v) := by
  by_cases h : w ≤ 4
  · rw [bitsOf_copyToWord ⟨hw, h⟩, bitsOf_ofNat, wordValue, if_pos h]
  · obtain ⟨k, rfl⟩ : ∃ k, w = k + 4 := ⟨w - 4, by omega⟩
    have hset : (List.replicate (k + 4) (0 : Byte)).set k ((BitVec.ofNat 32 v).extractLsb' 0 8) =
        List.replicate k 0 ++ (BitVec.ofNat 32 v).extractLsb' 0 8 :: List.replicate 3 0 := by
      rw [List.replicate_add, List.set_append]
      simp [List.replicate_succ]
    have hlow : bitsOf ((BitVec.ofNat 32 v).extractLsb' 0 8) = natBits 8 (v % 256) := by
      rw [bitsOf_eq]
      congr 1
      simp
    have hword : natBits 32 (v % 256) = natBits 8 (v % 256) ++ natBits 24 0 := by
      have hadd := natBits_mul_add (m := 8) (b := v % 256) 24 0 (Nat.mod_lt v (by decide))
      rwa [Nat.mul_zero, Nat.zero_add] at hadd
    have hwide := natBits_mul_add (m := 8 * k) 32 (v % 256) (Nat.two_pow_pos _)
    rw [copyToWord, if_neg (by omega), Nat.add_sub_cancel, hset, List.flatMap_append, List.flatMap_cons, bitsOf_zeroBytes,
      bitsOf_zeroBytes, hlow, ← hword, ← hwide, wordValue, if_neg h, Nat.add_sub_cancel, Nat.mul_add]
    rfl

/-- What the host reads from a word with these bits. -/
theorem copyFromWord_toNat {word : List Byte} (hbits : word.flatMap bitsOf = natBits (8 * w) x) (hx : x < 2 ^ (8 * w))
    (hlen : word.length = w) : (copyFromWord w word).toNat = fromValue w x := by
  by_cases h : w ≤ 4
  · rw [copyFromWord, Nat.min_eq_left h, Nat.sub_self, List.drop_zero, List.take_of_length_le (Nat.le_of_eq hlen), hbits,
      toNat_ofBits_natBits (by omega), Nat.mod_eq_of_lt hx, fromValue, if_pos h]
  · have hdrop : (word.drop (w - 4)).length = 4 := by
      rw [List.length_drop]
      omega
    have hlt : x / 2 ^ (8 * (w - 4)) < 2 ^ 32 := by
      rw [Nat.div_lt_iff_lt_mul (Nat.two_pow_pos _), ← Nat.pow_add]
      exact Nat.lt_of_lt_of_eq hx (congrArg _ (by omega))
    rw [copyFromWord, Nat.min_eq_right (by omega), List.take_of_length_le (Nat.le_of_eq hdrop), flatMap_drop, hbits,
      drop_natBits, toNat_ofBits_natBits (by omega), show 8 * w - 8 * (w - 4) = 32 by omega, Nat.mod_eq_of_lt hlt, fromValue,
      if_neg h]

theorem wordValue_lt (hv : v < 2 ^ (8 * min w 4)) : wordValue w v < 2 ^ (8 * w) := by
  rw [wordValue]
  split
  case isTrue h => rwa [Nat.min_eq_left h] at hv
  case isFalse h =>
    obtain ⟨k, rfl⟩ : ∃ k, w = k + 5 := ⟨w - 5, by omega⟩
    have hpow : 2 ^ (8 * (k + 5)) = 2 ^ (8 * (k + 5 - 4)) * 2 ^ 32 := by
      rw [← Nat.pow_add]
      exact congrArg _ (by omega)
    rw [hpow]
    exact Nat.mul_lt_mul_of_pos_left (by omega) (Nat.two_pow_pos _)

/-- What the host reads from a word of the target. -/
theorem copyFromWord_count {count : BitVec (8 * w)} (hcount : count.toNat = v) :
    (copyFromWord w (bytesOf w (bitsOf count))).toNat = fromValue w v := by
  have hbits : (bytesOf w (bitsOf count)).flatMap bitsOf = natBits (8 * w) v := by
    rw [flatMap_bytesOf (by simp [bitsOf]), bitsOf_eq, hcount]
  exact copyFromWord_toNat hbits (hcount ▸ count.isLt) (by simp [bytesOf])

theorem fromValue_eq_iff (w v : Nat) : fromValue w v = v ↔ w ≤ 4 ∨ v = 0 := by
  by_cases h : w ≤ 4
  · simp [fromValue, h]
  · have hlt : v ≠ 0 → v / 2 ^ (8 * (w - 4)) < v := fun h0 =>
      Nat.div_lt_self (by omega) (Nat.one_lt_two_pow (by omega))
    by_cases h0 : v = 0
    · simp [fromValue, h0]
    · rw [fromValue, if_neg h]
      exact ⟨fun heq => absurd heq (Nat.ne_of_lt (hlt h0)), fun hor => absurd hor (by simp [h, h0])⟩

theorem header_codec_iff (hw : 1 ≤ w) (hv : v < 2 ^ (8 * min w 4)) : HeaderCodec w v ↔ w ≤ 4 ∨ v = 0 := by
  have hbits := copyToWord_bits hw v
  have hlen := length_copyToWord w (BitVec.ofNat 32 v)
  constructor
  · intro h
    have hlt : v < 2 ^ (8 * w) := Nat.lt_of_lt_of_le hv (Nat.pow_le_pow_right (by decide) (by omega))
    have hcount : (BitVec.ofNat (8 * w) v).toNat = v := by rw [BitVec.toNat_ofNat, Nat.mod_eq_of_lt hlt]
    -- the count word of a machine that has read `v` words
    let s : OutputFsm (8 * w) := ⟨.sendCountRead, 0, 0, BitVec.ofNat _ v, 0, 0, 0, 0, 0⟩
    let shifted : BitVec (8 * w) := 0
    let cs : List (OutputIn (8 * w)) := (shiftWord shifted).map fun tap => ⟨tap, false, 0, 0, false⟩
    have hcs : cs.map OutputIn.tap = shiftWord shifted := by simp [cs, Function.comp_def]
    have hsent := (OutputFsm.sendCountRead_word hcs (s := s) (by omega) rfl rfl).sent
    have hread := h.read s shifted cs rfl rfl hcs hcount
    rw [hsent, copyFromWord_count hcount] at hread
    exact (fromValue_eq_iff w v).mp hread
  · intro h
    have hvalue : wordValue w v = v := by
      rw [wordValue]
      obtain h | rfl := h
      · exact if_pos h
      · simp
    have hfrom := (fromValue_eq_iff w v).mpr h
    refine ⟨hlen, ?_, ?_, ?_, ?_⟩
    · rw [copyFromWord_toNat hbits (wordValue_lt hv) hlen, hvalue, hfrom]
    · intro s cs hs hb hr hcs
      have hword : cs.map Prod.fst = shiftWord (BitVec.ofNat (8 * w) v) := by
        rw [hcs, hbits, hvalue, shiftWord, bitsOf_ofNat]
      rw [header_inRegCnt hword (by omega) s hs hb hr, BitVec.toNat_ofNat,
        Nat.mod_eq_of_lt (hvalue ▸ wordValue_lt hv)]
    · intro s shifted count cs hs hb hcs herror hacc hcount
      rw [(OutputFsm.sendCountWrite_word hcs (by omega) hs hb herror hacc).sent, copyFromWord_count hcount, hfrom]
    · intro s shifted cs hs hb hcs hcount
      rw [(OutputFsm.sendCountRead_word hcs (by omega) hs hb).sent, copyFromWord_count hcount, hfrom]

theorem header_codec_two : HeaderCodec 2 258 := (header_codec_iff (by decide) (by decide)).mpr (.inl (by decide))

/-- A word of eight bytes only takes the lowest byte of a value: it is written in the middle of the word,
and the target reads it as a number from 2 ^ 32 on. -/
theorem header_codec_eight : ¬ HeaderCodec 8 256 ∧ copyToWord 8 (BitVec.ofNat 32 256) = List.replicate 8 0 ∧
    copyToWord 8 (BitVec.ofNat 32 1) = [0, 0, 0, 0, 1, 0, 0, 0] := by
  refine ⟨fun h => ?_, by decide, by decide⟩
  have hlost : (copyFromWord 8 (copyToWord 8 (BitVec.ofNat 32 256))).toNat = 0 := by decide
  have hsame := h.roundTrip
  omega

end Glip.Jtag
