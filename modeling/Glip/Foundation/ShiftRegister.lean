import Glip.Foundation.BitSerial

/-! Shift registers between a serial input and a serial output. -/
namespace Glip.Foundation
variable {w : Nat}

def shiftIn (b : Bool) (x : BitVec w) : BitVec w := (BitVec.cons b x).extractLsb' 1 w

theorem getLsbD_shiftIn (b : Bool) (x : BitVec w) {i : Nat} (hi : i < w) :
    (shiftIn b x).getLsbD i = if i + 1 = w then b else x.getLsbD (i + 1) := by
  rw [shiftIn, BitVec.getLsbD_extractLsb', decide_eq_true hi, Bool.true_and, BitVec.getLsbD_cons, Nat.add_comm]

/-- A shift passes on the lowest bit and takes one at the top. -/
theorem bitsOf_shiftIn (hw : 0 < w) (b : Bool) (x : BitVec w) : bitAt x 0 :: bitsOf (shiftIn b x) = bitsOf x ++ [b] := by
  apply List.ext_getElem
  · simp
  · intro i hi hi'
    rw [List.length_cons, length_bitsOf] at hi
    rcases i with _ | i
    · rw [List.getElem_cons_zero, List.getElem_append_left (by rwa [length_bitsOf]), getElem_bitsOf]
    · have hi : i < w := by omega
      rw [List.getElem_cons_succ, getElem_bitsOf, bitAt, getLsbD_shiftIn b x hi]
      split
      case isTrue hlast =>
        rw [List.getElem_append_right (by rw [length_bitsOf]; omega), List.getElem_singleton]
      case isFalse hlast =>
        rw [List.getElem_append_left (by rw [length_bitsOf]; omega), getElem_bitsOf]
        rfl

namespace Transducer
variable {σ ι ε : Type}

theorem Each.imp {m : Transducer σ ι ε} {P Q : σ → ι → Prop} (h : ∀ s i, P s i → Q s i) {s : σ} {ins : List ι}
    (hP : m.Each P s ins) : m.Each Q s ins := by
  induction ins generalizing s with
  | nil => trivial
  | cons i ins ih => exact ⟨h s i hP.1, ih hP.2⟩

/-- A run of a machine that is a register of bits between `taken` and `given`: what it has given and what it
holds is what it held and what it has taken. -/
theorem shifts {next : σ → ι → σ} {taken given : σ → ι → List ε} (held : σ → List ε) {P : σ → ι → Prop}
    (hstep : ∀ s i, P s i → given s i ++ held (next s i) = held s ++ taken s i)
    {s : σ} {ins : List ι} (hP : Each ⟨next, given⟩ P s ins) :
    emitted ⟨next, given⟩ s ins ++ held (ins.foldl next s) = held s ++ emitted ⟨next, taken⟩ s ins := by
  induction ins generalizing s with
  | nil => simp
  | cons i ins ih =>
    obtain ⟨hi, hins⟩ := hP
    have hrest := ih hins
    rw [emitted_cons, emitted_cons, List.foldl_cons, List.append_assoc, hrest, ← List.append_assoc, hstep s i hi,
      List.append_assoc]

end Transducer
end Glip.Foundation
