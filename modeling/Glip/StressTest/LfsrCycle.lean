import Glip.Foundation.XorPolynomial
import Glip.StressTest.RandomWords
import Mathlib.Tactic.NormNum.Prime

/-! The random words of the stress test run through all words but 0. -/
namespace Glip.StressTest
open Foundation Function

private theorem xor_taps (a b c d x y z t : Bool) :
    ((a ^^ x) ^^ (b ^^ y) ^^ (c ^^ z) ^^ (d ^^ t)) = ((a ^^ b ^^ c ^^ d) ^^ (x ^^ y ^^ z ^^ t)) := by
  decide +revert

theorem shift16_xor : XorLinear shift16 := by
  intro a b
  ext i hi
  cases i with
  | zero =>
    simp only [shift16, BitVec.getElem_xor, BitVec.getElem_concat_zero]
    exact xor_taps ..
  | succ i => simp [shift16]

theorem shift32_xor : XorLinear shift32 := by
  intro a b
  ext i hi
  cases i with
  | zero =>
    simp only [shift32, BitVec.getElem_xor, BitVec.getElem_concat_zero]
    exact xor_taps ..
  | succ i => simp [shift32]

theorem lfsrInc_xor (w : Width) : XorLinear w.lfsrInc := by
  rw [lfsrInc_eq_shift]
  cases w with
  | w16 => exact shift16_xor
  | w32 => exact shift32_xor

def Width.poly : Width → Nat
  | w16 => 2 ^ 16 + 2 ^ 12 + 2 ^ 3 + 2 + 1
  | w32 => 2 ^ 32 + 2 ^ 31 + 2 ^ 30 + 2 ^ 10 + 1

theorem poly_vanishes (w : Width) : Vanishes w.lfsrInc 1 w.bits w.poly := by
  cases w with
  | w16 => exact ⟨by decide, by decide, by decide +kernel⟩
  | w32 => exact ⟨by decide, by decide, by decide +kernel⟩

/-- The primes that divide the number of words. -/
theorem prime_dvd_cases (w : Width) {q : Nat} (hq : q.Prime) (h : q ∣ 2 ^ w.bits - 1) :
    q = 3 ∨ q = 5 ∨ q = 17 ∨ q = 257 ∨ (w = .w32 ∧ q = 65537) := by
  have heq {p : Nat} (hp : p.Prime) (h : q ∣ p) : q = p := (Nat.prime_dvd_prime_iff_eq hq hp).mp h
  have hfactors : 2 ^ w.bits - 1 = 3 * (5 * (17 * (257 * if w = .w32 then 65537 else 1))) := by cases w <;> rfl
  rw [hfactors, hq.dvd_mul, hq.dvd_mul, hq.dvd_mul, hq.dvd_mul] at h
  obtain h | h | h | h | h := h
  · exact .inl (heq (by norm_num) h)
  · exact .inr (.inl (heq (by norm_num) h))
  · exact .inr (.inr (.inl (heq (by norm_num) h)))
  · exact .inr (.inr (.inr (.inl (heq (by norm_num) h))))
  · split at h
    case isTrue hw => exact .inr (.inr (.inr (.inr ⟨hw, heq (by norm_num) h⟩)))
    case isFalse => exact absurd (Nat.dvd_one.mp h) hq.one_lt.ne'

theorem lfsrInc_period (w : Width) : minimalPeriod w.lfsrInc 1 = 2 ^ w.bits - 1 := by
  have hvalue {e : Nat} (he : e < 2 ^ w.bits) :
      w.lfsrInc^[e] 1 = evalAt w.lfsrInc 1 w.bits (powMod w.bits w.poly w.bits e) :=
    iterate_eq_evalAt (lfsrInc_xor w) (poly_vanishes w) (by cases w <;> decide) he
  refine minimalPeriod_eq_of_prime ?_ fun q hq hdvd => ?_
  · rw [IsPeriodicPt, IsFixedPt, hvalue (Nat.sub_lt (Nat.two_pow_pos _) Nat.one_pos)]
    cases w <;> decide +kernel
  · have hlt : (2 ^ w.bits - 1) / q < 2 ^ w.bits :=
      (Nat.div_le_self _ _).trans_lt (Nat.sub_lt (Nat.two_pow_pos _) Nat.one_pos)
    rw [IsPeriodicPt, IsFixedPt, hvalue hlt]
    obtain rfl | rfl | rfl | rfl | ⟨rfl, rfl⟩ := prime_dvd_cases w hq hdvd
    · cases w <;> decide +kernel
    · cases w <;> decide +kernel
    · cases w <;> decide +kernel
    · cases w <;> decide +kernel
    · decide +kernel

theorem lfsrInc_zero (w : Width) : w.lfsrInc 0 = 0 := (lfsrInc_xor w).map_zero

theorem iterate_lfsrInc_ne_zero (w : Width) {lfsr : BitVec w.bits} (h : lfsr ≠ 0) (k : Nat) : w.lfsrInc^[k] lfsr ≠ 0 := by
  have hone : (1 : BitVec w.bits) ≠ 0 := by cases w <;> decide
  obtain ⟨i, -, rfl⟩ := exists_iterate_eq (lfsrInc_zero w) hone (lfsrInc_period w) h
  rw [← iterate_add_apply]
  exact iterate_ne_zero (lfsrInc_zero w) hone (lfsrInc_period w) _

/-- Each word but 0 is reached from each other, and 0 from none. -/
theorem lfsrInc_reaches_iff (w : Width) {lfsr word : BitVec w.bits} (h : lfsr ≠ 0) :
    (∃ k, w.lfsrInc^[k + 1] lfsr = word) ↔ word ≠ 0 := by
  have hone : (1 : BitVec w.bits) ≠ 0 := by cases w <;> decide
  constructor
  · rintro ⟨k, rfl⟩
    exact iterate_lfsrInc_ne_zero w h _
  · exact reaches_of_maximal (lfsrInc_zero w) hone (lfsrInc_period w) h

end Glip.StressTest
