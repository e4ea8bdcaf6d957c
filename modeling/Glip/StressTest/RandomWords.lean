import Glip.Foundation.Transducer
import Mathlib.Logic.Function.Iterate

/-! The random words of the stress test: `lfsr_inc_16` and `lfsr_inc_32` of io_stress_test.c on the host and
stress_test_lfsr.v on the device. -/
namespace Glip.StressTest
open Foundation

abbrev Taps (w : Nat) := List (BitVec w)

def lfsrTaps16 : Taps 16 := [0xFFFF, 1#16 <<< 15, 1#16 <<< 14, 1#16 <<< 12, 1#16 <<< 3, 0]

def lfsrTaps32 : Taps 32 := [0xFFFFFFFF, 1#32 <<< 31, 1#32 <<< 21, 1#32 <<< 1, 1#32 <<< 0, 0]

def tapBit {w : Nat} (lfsr : BitVec w) (tap : Bool) : Taps w → Bool
  | [] => tap
  | t :: ts => if t = 0 then tap else tapBit lfsr (tap ^^ (t &&& lfsr != 0)) ts

def lfsrInc {w : Nat} (taps : Taps w) (lfsr : BitVec w) : BitVec w :=
  match taps with
  | [] => lfsr
  | mask :: ts => (lfsr <<< 1 ||| (BitVec.ofBool (tapBit lfsr false ts)).setWidth w) &&& mask

def lfsrInc16 : BitVec 16 → BitVec 16 := lfsrInc lfsrTaps16

def lfsrInc32 : BitVec 32 → BitVec 32 := lfsrInc lfsrTaps32

structure LfsrIn (w : Nat) where
  rndSeed : BitVec w
  setSeed : Bool
  generateRnd : Bool

def shift16 (r : BitVec 16) : BitVec 16 := (r.extractLsb' 0 15).concat (r[15] ^^ r[14] ^^ r[12] ^^ r[3])

def shift32 (r : BitVec 32) : BitVec 32 := (r.extractLsb' 0 31).concat (r[31] ^^ r[21] ^^ r[1] ^^ r[0])

/-- `rnd_gen`, which is the output `rnd_data`; a seed of 0 is replaced, and any other is shifted at once. -/
def nextRnd {w : Nat} (shift : BitVec w → BitVec w) (rndGen : BitVec w) (i : LfsrIn w) : BitVec w :=
  if i.setSeed then
    if i.rndSeed = 0 then 1 else shift i.rndSeed
  else if i.generateRnd then shift rndGen
  else rndGen

def stressTestLfsr {w : Nat} (shift : BitVec w → BitVec w) : Transducer (BitVec w) (LfsrIn w) Empty where
  next := nextRnd shift
  emit _ _ := []

inductive Width where
  | w16
  | w32
  deriving DecidableEq

def Width.bits : Width → Nat
  | w16 => 16
  | w32 => 32

/-- The seed word for a width, `lfsr16` or `lfsr32`, which is the host's own state when the test begins. -/
def Width.seedWord (lfsr32 : BitVec 32) : (w : Width) → BitVec w.bits
  | w16 => lfsr32.setWidth 16
  | w32 => lfsr32

def Width.lfsrInc : (w : Width) → BitVec w.bits → BitVec w.bits
  | w16 => lfsrInc16
  | w32 => lfsrInc32

def Width.shift : (w : Width) → BitVec w.bits → BitVec w.bits
  | w16 => shift16
  | w32 => shift32

def hostWord (w : Width) (lfsr32 : BitVec 32) (n : Nat) : BitVec w.bits := w.lfsrInc^[n] (w.seedWord lfsr32)

def deviceWord (w : Width) (rndGen : BitVec w.bits) (seed : LfsrIn w.bits) (is : List (LfsrIn w.bits)) : BitVec w.bits :=
  (stressTestLfsr w.shift).after rndGen (seed :: is)

/-- Whatever was in the register, after the seed and `n` requests for a new word the device has the word `n + 1`. -/
def Agree (w : Width) (lfsr32 : BitVec 32) : Prop :=
  ∀ (rndGen : BitVec w.bits) (generateRnd : Bool) (is : List (LfsrIn w.bits)), (∀ i ∈ is, i.setSeed = false) →
    deviceWord w rndGen ⟨w.seedWord lfsr32, true, generateRnd⟩ is =
      hostWord w lfsr32 (is.countP (·.generateRnd) + 1)

section
variable {w : Nat}

/-- A tap picks out a bit. -/
private theorem and_tap (i : Nat) (hi : i < w) (r : BitVec w) : ((1#w <<< i) &&& r != 0#w) = r[i] := by
  have hne : BitVec.twoPow w i ≠ 0#w := by
    intro h
    have := congrArg (fun b => b.getLsbD i) h
    simp [hi] at this
  rw [← BitVec.twoPow_eq, BitVec.and_comm, BitVec.and_twoPow, BitVec.getLsbD_eq_getElem hi]
  cases r[i] <;> simp [hne]

/-- The statements behind the loop shift the tap bit in. -/
private theorem shiftLeft_or (r : BitVec (w + 1)) (tap : Bool) :
    (r <<< 1 ||| (BitVec.ofBool tap).setWidth (w + 1)) &&& BitVec.allOnes (w + 1) =
      (r.extractLsb' 0 w).concat tap := by
  rw [BitVec.and_allOnes]
  ext i hi
  cases i with
  | zero => simp
  | succ i =>
    have hlt : i < w + 1 := by omega
    simp [BitVec.getLsbD_eq_getElem hlt]

end

theorem lfsrInc16_eq (r : BitVec 16) : lfsrInc16 r = shift16 r := by
  have h (i : Nat) (hi : i < 16) := and_tap i hi r
  have htap : tapBit r false lfsrTaps16.tail = (r[15] ^^ r[14] ^^ r[12] ^^ r[3]) := by
    simp only [lfsrTaps16, List.tail_cons, tapBit]
    rw [if_neg (by decide), if_neg (by decide), if_neg (by decide), if_neg (by decide), if_pos trivial, Bool.false_xor]
    exact congrArg₂ _ (congrArg₂ _ (congrArg₂ _ (h 15 _) (h 14 _)) (h 12 _)) (h 3 _)
  rw [shift16, ← htap]
  exact shiftLeft_or r _

theorem lfsrInc32_eq (r : BitVec 32) : lfsrInc32 r = shift32 r := by
  have h (i : Nat) (hi : i < 32) := and_tap i hi r
  have htap : tapBit r false lfsrTaps32.tail = (r[31] ^^ r[21] ^^ r[1] ^^ r[0]) := by
    simp only [lfsrTaps32, List.tail_cons, tapBit]
    rw [if_neg (by decide), if_neg (by decide), if_neg (by decide), if_neg (by decide), if_pos trivial, Bool.false_xor]
    exact congrArg₂ _ (congrArg₂ _ (congrArg₂ _ (h 31 _) (h 21 _)) (h 1 _)) (h 0 _)
  rw [shift32, ← htap]
  exact shiftLeft_or r _

/-- One generator in two languages. -/
theorem lfsrInc_eq_shift (w : Width) : w.lfsrInc = w.shift := by
  cases w with
  | w16 => exact funext lfsrInc16_eq
  | w32 => exact funext lfsrInc32_eq

/-- From a state on, the device shifts once for each word that is asked for. -/
theorem after_shifts {w : Nat} (shift : BitVec w → BitVec w) (r : BitVec w) {is : List (LfsrIn w)}
    (his : ∀ i ∈ is, i.setSeed = false) :
    (stressTestLfsr shift).after r is = shift^[is.countP (·.generateRnd)] r := by
  induction is generalizing r with
  | nil => rfl
  | cons i is ih =>
    have hset := his i List.mem_cons_self
    rw [Transducer.after_cons, ih _ fun j hj => his j (List.mem_cons_of_mem _ hj)]
    cases hgen : i.generateRnd with
    | true =>
      rw [List.countP_cons_of_pos hgen, Function.iterate_succ_apply]
      simp [stressTestLfsr, nextRnd, hset, hgen]
    | false =>
      rw [List.countP_cons_of_neg (by simp [hgen])]
      simp [stressTestLfsr, nextRnd, hset, hgen]

/-- A seed of 0 does not move on the host. -/
theorem hostWord_of_zero (w : Width) {lfsr32 : BitVec 32} (h : w.seedWord lfsr32 = 0) (n : Nat) :
    hostWord w lfsr32 n = 0 := by
  have hfix : w.lfsrInc 0 = 0 := by cases w <;> decide
  rw [hostWord, h]
  exact Function.iterate_fixed hfix n

/-- The random words of host and device agree exactly for the seeds that are not 0 as a word of the width. -/
theorem random_words_agree_iff (w : Width) (lfsr32 : BitVec 32) (hseed : lfsr32 ≠ 0) :
    Agree w lfsr32 ↔ (w = .w16 → lfsr32.setWidth 16 ≠ 0) := by
  have hword : (w = .w16 → lfsr32.setWidth 16 ≠ 0) ↔ w.seedWord lfsr32 ≠ 0 := by
    cases w with
    | w16 => exact ⟨fun h => h rfl, fun h _ => h⟩
    | w32 => exact ⟨fun _ => hseed, fun _ h => by cases h⟩
  rw [hword]
  constructor
  · intro h hzero
    have hone := h 0 false [] (fun _ hi => by cases hi)
    rw [hostWord_of_zero w hzero] at hone
    have hdev : deviceWord w 0 ⟨w.seedWord lfsr32, true, false⟩ [] = 1 := by
      simp [deviceWord, stressTestLfsr, nextRnd, hzero]
    rw [hdev] at hone
    cases w <;> exact absurd hone (by decide)
  · intro hne rndGen generateRnd is his
    have hseeded : nextRnd w.shift rndGen ⟨w.seedWord lfsr32, true, generateRnd⟩ = w.shift (w.seedWord lfsr32) :=
      (if_pos rfl).trans (if_neg hne)
    rw [deviceWord, Transducer.after_cons, after_shifts _ _ his, hostWord, lfsrInc_eq_shift, Function.iterate_succ_apply]
    exact congrArg _ hseeded

theorem random_words_agree_iff_default : Agree .w16 1 :=
  (random_words_agree_iff .w16 1 (by decide)).mpr fun _ => by decide

/-- The seed 65536, which the option accepts, is 0 as a word of 16 bits: the host sends zeros and the device
begins with 1. -/
theorem random_words_disagree :
    (65536 : BitVec 32) ≠ 0 ∧ ¬Agree .w16 65536 ∧ hostWord .w16 65536 1 = 0 ∧
      deviceWord .w16 0 ⟨Width.w16.seedWord 65536, true, false⟩ [] = 1 := by
  have hhost : hostWord .w16 65536 1 = 0 := by decide
  have hdevice : deviceWord .w16 0 ⟨Width.w16.seedWord 65536, true, false⟩ [] = 1 := by decide
  refine ⟨by decide, fun h => ?_, hhost, hdevice⟩
  have hone := h 0 false [] (fun _ hi => by cases hi)
  rw [hdevice] at hone
  exact absurd (hone.trans hhost) (by decide)

end Glip.StressTest
