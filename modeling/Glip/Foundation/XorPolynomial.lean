import Mathlib.Order.Interval.Finset.Nat
import Mathlib.Data.Nat.Prime.Basic
import Mathlib.Dynamics.PeriodicPts.Defs
import Mathlib.Tactic.Ring

/-! Maps of words that respect exclusive or. A high iterate of such a map is the value of a polynomial in it, which
is computed by repeated squaring modulo a polynomial that vanishes. -/
namespace Glip.Foundation
variable {w : Nat} {f : BitVec w → BitVec w} {v : BitVec w}

def XorLinear (f : BitVec w → BitVec w) : Prop := ∀ a b, f (a ^^^ b) = f a ^^^ f b

theorem XorLinear.map_zero (hf : XorLinear f) : f 0 = 0 := by
  have h := hf 0 0
  rwa [BitVec.xor_self, BitVec.xor_self] at h

/-- The value at `v` of a polynomial in `f`; its coefficients are the lowest `n` bits of `p`. -/
def evalAt (f : BitVec w → BitVec w) (v : BitVec w) : Nat → Nat → BitVec w
  | 0, _ => 0
  | n + 1, p => (if p.testBit 0 then v else 0) ^^^ f (evalAt f v n (p / 2))

def mulX (n m c : Nat) : Nat := if (2 * c).testBit n then 2 * c ^^^ m else 2 * c

def mulMod (n m : Nat) : Nat → Nat → Nat → Nat
  | 0, _, _ => 0
  | k + 1, c, d => (if c.testBit 0 then d else 0) ^^^ mulMod n m k (c / 2) (mulX n m d)

def powMod (n m : Nat) : Nat → Nat → Nat
  | 0, _ => 1
  | k + 1, e =>
    let half := powMod n m k (e / 2)
    let square := mulMod n m n half half
    if e.testBit 0 then mulX n m square else square

/-- A sum of two values that are added up by a part. -/
private theorem xor_parts (a b x y : BitVec w) : a ^^^ b ^^^ (x ^^^ y) = a ^^^ x ^^^ (b ^^^ y) := by ac_rfl

section Values
variable (hf : XorLinear f)
include hf

theorem evalAt_xor (v : BitVec w) (n p q : Nat) : evalAt f v n (p ^^^ q) = evalAt f v n p ^^^ evalAt f v n q := by
  induction n generalizing p q with
  | zero => exact (BitVec.xor_self).symm
  | succ n ih =>
    rw [evalAt, evalAt, evalAt, Nat.xor_div_two, ih, hf, Nat.testBit_xor, xor_parts]
    congr 1
    cases p.testBit 0 <;> cases q.testBit 0 <;> simp

theorem evalAt_zero (v : BitVec w) (n : Nat) : evalAt f v n 0 = 0 := by
  have h := evalAt_xor hf v n 0 0
  rwa [Nat.xor_self, BitVec.xor_self] at h

/-- Coefficients that are 0 may be left out. -/
theorem evalAt_succ {n p : Nat} (hp : p < 2 ^ n) : evalAt f v (n + 1) p = evalAt f v n p := by
  induction n generalizing p with
  | zero =>
    obtain rfl : p = 0 := by omega
    exact evalAt_zero hf v 1
  | succ n ih =>
    have hhalf : p / 2 < 2 ^ n := by omega
    rw [evalAt, ih hhalf, evalAt]

omit hf in
theorem evalAt_two_mul (n p : Nat) : evalAt f v (n + 1) (2 * p) = f (evalAt f v n p) := by
  have hlow : (2 * p).testBit 0 = false := by simp
  rw [evalAt, hlow, Nat.mul_div_cancel_left p (by decide)]
  exact BitVec.zero_xor

theorem evalAt_map (n p : Nat) : evalAt f (f v) n p = f (evalAt f v n p) := by
  induction n generalizing p with
  | zero => exact hf.map_zero.symm
  | succ n ih =>
    rw [evalAt, evalAt, ih, hf]
    split
    · rfl
    · rw [hf.map_zero]

theorem evalAt_iterate (k n p : Nat) : evalAt f (f^[k] v) n p = f^[k] (evalAt f v n p) := by
  induction k with
  | zero => rfl
  | succ k ih => rw [Function.iterate_succ_apply', Function.iterate_succ_apply', evalAt_map hf, ih]

end Values

structure Vanishes (f : BitVec w → BitVec w) (v : BitVec w) (n m : Nat) : Prop where
  lead : m.testBit n = true
  lt : m < 2 ^ (n + 1)
  value : evalAt f v (n + 1) m = 0

section Modulus
variable {n m : Nat} (hf : XorLinear f) (hm : Vanishes f v n m)
include hm

theorem mulX_lt {c : Nat} (hc : c < 2 ^ n) : mulX n m c < 2 ^ n := by
  have hdouble : 2 * c < 2 ^ (n + 1) := by
    rw [Nat.pow_succ]
    omega
  rw [mulX]
  split
  · have hxor := Nat.xor_lt_two_pow hdouble hm.lt
    refine Nat.lt_pow_two_of_testBit _ fun i hi => ?_
    obtain rfl | hgt := Nat.eq_or_lt_of_le hi
    · rw [Nat.testBit_xor, ‹(2 * c).testBit n = true›, hm.lead]
      rfl
    · exact Nat.testBit_lt_two_pow (hxor.trans_le (Nat.pow_le_pow_right (by decide) hgt))
  · refine Nat.lt_pow_two_of_testBit _ fun i hi => ?_
    obtain rfl | hgt := Nat.eq_or_lt_of_le hi
    · simpa using ‹¬ (2 * c).testBit n = true›
    · exact Nat.testBit_lt_two_pow (hdouble.trans_le (Nat.pow_le_pow_right (by decide) hgt))

theorem mulMod_lt {k c d : Nat} (hd : d < 2 ^ n) : mulMod n m k c d < 2 ^ n := by
  induction k generalizing c d with
  | zero => exact Nat.two_pow_pos n
  | succ k ih =>
    rw [mulMod]
    refine Nat.xor_lt_two_pow ?_ (ih (mulX_lt hm hd))
    split
    · exact hd
    · exact Nat.two_pow_pos n

theorem powMod_lt (hn : 1 ≤ n) {k e : Nat} : powMod n m k e < 2 ^ n := by
  induction k generalizing e with
  | zero => exact Nat.one_lt_two_pow (by omega)
  | succ k ih =>
    have hsquare := mulMod_lt hm (k := n) (c := powMod n m k (e / 2)) (ih (e := e / 2))
    rw [powMod]
    split
    · exact mulX_lt hm hsquare
    · exact hsquare

include hf

theorem evalAt_mulX {c : Nat} (hc : c < 2 ^ n) : evalAt f v n (mulX n m c) = f (evalAt f v n c) := by
  rw [← evalAt_succ hf (mulX_lt hm hc), ← evalAt_two_mul (f := f) n c, mulX]
  split
  · rw [evalAt_xor hf, hm.value]
    exact BitVec.xor_zero
  · rfl

theorem evalAt_mulMod {k c d : Nat} (hd : d < 2 ^ n) :
    evalAt f v n (mulMod n m k c d) = evalAt f (evalAt f v n d) k c := by
  induction k generalizing c d with
  | zero => exact evalAt_zero hf v n
  | succ k ih =>
    rw [mulMod, evalAt_xor hf, ih (mulX_lt hm hd), evalAt_mulX hf hm hd, evalAt_map hf, evalAt]
    split
    · rfl
    · rw [evalAt_zero hf]

theorem iterate_eq_evalAt (hn : 1 ≤ n) {k e : Nat} (he : e < 2 ^ k) : f^[e] v = evalAt f v n (powMod n m k e) := by
  induction k generalizing e with
  | zero =>
    obtain rfl : e = 0 := by omega
    obtain ⟨n, rfl⟩ := Nat.exists_eq_add_of_le' hn
    have hrest : 1 / 2 = 0 := rfl
    rw [powMod, evalAt, hrest, evalAt_zero hf, hf.map_zero]
    exact BitVec.xor_zero.symm
  | succ k ih =>
    have hhalf := ih (e := e / 2) (by omega)
    have hlt := powMod_lt hm hn (k := k) (e := e / 2)
    have hsquare : evalAt f v n (mulMod n m n (powMod n m k (e / 2)) (powMod n m k (e / 2))) = f^[2 * (e / 2)] v := by
      rw [evalAt_mulMod hf hm hlt, ← hhalf, evalAt_iterate hf, ← hhalf, ← Function.iterate_add_apply, Nat.two_mul]
    rw [powMod]
    split
    · rename_i hodd
      rw [evalAt_mulX hf hm (mulMod_lt hm hlt), hsquare, ← Function.iterate_succ_apply' f]
      have : e % 2 = 1 := by simpa using hodd
      exact congrArg (fun k => f^[k] v) (by omega)
    · rename_i heven
      rw [hsquare]
      have : e % 2 = 0 := by simpa using heven
      exact congrArg (fun k => f^[k] v) (by omega)

end Modulus

section Period
open Function
variable {N : Nat}

/-- A period is the smallest if dividing it by a prime leaves none. -/
theorem minimalPeriod_eq_of_prime {α : Type} {g : α → α} {x : α} (hper : IsPeriodicPt g N x)
    (hprime : ∀ q, q.Prime → q ∣ N → ¬ IsPeriodicPt g (N / q) x) : minimalPeriod g x = N := by
  by_contra hne
  obtain ⟨k, hk⟩ := hper.minimalPeriod_dvd
  have hk1 : k ≠ 1 := by
    rintro rfl
    exact hne (by rw [hk, Nat.mul_one])
  obtain ⟨q, hq, j, rfl⟩ := Nat.exists_prime_and_dvd hk1
  refine hprime q hq ⟨minimalPeriod g x * j, by rw [hk]; ring⟩ ?_
  have hquot : N / q = minimalPeriod g x * j := Nat.div_eq_of_eq_mul_left hq.pos (by rw [hk]; ring)
  rw [hquot]
  exact (isPeriodicPt_minimalPeriod g x).mul_const j

theorem maximal_pos (hv : v ≠ 0) : 0 < 2 ^ w - 1 := by
  have hlt := v.isLt
  have hne : v.toNat ≠ 0 := fun h => hv (BitVec.eq_of_toNat_eq h)
  omega

section Maximal
variable (h0 : f 0 = 0) (hv : v ≠ 0) (hper : minimalPeriod f v = 2 ^ w - 1)
include h0 hv hper

theorem iterate_ne_zero (k : Nat) : f^[k] v ≠ 0 := by
  intro hk
  have hpos := maximal_pos hv
  have hround : IsPeriodicPt f ((2 ^ w - 1) * k) v := hper ▸ (isPeriodicPt_minimalPeriod f v).mul_const k
  obtain ⟨t, ht⟩ := Nat.exists_eq_add_of_le (Nat.le_mul_of_pos_left k hpos)
  rw [ht, Nat.add_comm, IsPeriodicPt, IsFixedPt, iterate_add_apply, hk, iterate_fixed h0] at hround
  exact hv hround.symm

/-- The words on the way of `v` are all words but 0. -/
theorem exists_iterate_eq {a : BitVec w} (ha : a ≠ 0) : ∃ k < 2 ^ w - 1, f^[k] v = a := by
  have hinj : Set.InjOn (fun k => (f^[k] v).toNat) (Finset.range (2 ^ w - 1)) := fun i hi j hj hij => by
    rw [Finset.coe_range, ← hper] at hi hj
    exact iterate_injOn_Iio_minimalPeriod hi hj (BitVec.eq_of_toNat_eq hij)
  have hsub : (Finset.range (2 ^ w - 1)).image (fun k => (f^[k] v).toNat) ⊆ Finset.Ico 1 (2 ^ w) := by
    intro n hn
    obtain ⟨k, -, rfl⟩ := Finset.mem_image.mp hn
    have hne : (f^[k] v).toNat ≠ 0 := fun h => iterate_ne_zero h0 hv hper k (BitVec.eq_of_toNat_eq h)
    exact Finset.mem_Ico.mpr ⟨by omega, (f^[k] v).isLt⟩
  have hall := Finset.eq_of_subset_of_card_le hsub
    (by rw [Finset.card_image_of_injOn hinj, Finset.card_range, Nat.card_Ico])
  have hne : a.toNat ≠ 0 := fun h => ha (BitVec.eq_of_toNat_eq h)
  have hmem : a.toNat ∈ Finset.Ico 1 (2 ^ w) := Finset.mem_Ico.mpr ⟨by omega, a.isLt⟩
  rw [← hall] at hmem
  obtain ⟨k, hk, hka⟩ := Finset.mem_image.mp hmem
  exact ⟨k, Finset.mem_range.mp hk, BitVec.eq_of_toNat_eq hka⟩

/-- A map that keeps 0 and has the longest possible period leads from each other word to each other word. -/
theorem reaches_of_maximal {a b : BitVec w} (ha : a ≠ 0) (hb : b ≠ 0) : ∃ k, f^[k + 1] a = b := by
  obtain ⟨i, hi, rfl⟩ := exists_iterate_eq h0 hv hper ha
  obtain ⟨j, -, rfl⟩ := exists_iterate_eq h0 hv hper hb
  refine ⟨2 ^ w - 1 - i - 1 + j, ?_⟩
  have hsteps : 2 ^ w - 1 - i - 1 + j + 1 + i = j + (2 ^ w - 1) := by omega
  have hround : f^[2 ^ w - 1] v = v := hper ▸ isPeriodicPt_minimalPeriod f v
  rw [← iterate_add_apply, hsteps, iterate_add_apply, hround]

end Maximal
end Period
end Glip.Foundation
