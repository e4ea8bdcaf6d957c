import Mathlib.Data.Int.ModEq
import Mathlib.Tactic.Positivity

/-! Conversions between C's integer types. A value of an unsigned type of `w` bits
is a `Nat` below `2 ^ w`, a value of a signed type an `Int`. -/
namespace Glip.Foundation

def unsignedOf (w : Nat) (i : Int) : Nat := (i % 2 ^ w).toNat

def signedOf (w : Nat) (i : Int) : Int := i.bmod (2 ^ w)

theorem unsignedOf_natCast (w n : Nat) : unsignedOf w n = n % 2 ^ w := by
  have h : (2 : Int) ^ w = (2 ^ w : Nat) := by push_cast; rfl
  rw [unsignedOf, h, ← Int.natCast_mod, Int.toNat_natCast]

theorem unsignedOf_eq {w n : Nat} (h : n < 2 ^ w) : unsignedOf w n = n := by
  rw [unsignedOf_natCast, Nat.mod_eq_of_lt h]

theorem signedOf_eq {w : Nat} {i : Int} (h₁ : -2 ^ w ≤ i * 2) (h₂ : i * 2 < 2 ^ w) : signedOf w i = i := by
  unfold signedOf
  refine Int.bmod_eq_of_le_mul_two ?_ ?_ <;> push_cast <;> omega

theorem signedOf_natCast {w n : Nat} (h : n * 2 < 2 ^ w) : signedOf w n = n := by
  have hn : (n * 2 : Int) < 2 ^ w := by exact_mod_cast h
  exact signedOf_eq (by omega) hn

/-- A conversion keeps exactly the values of the signed type. -/
theorem signedOf_natCast_iff {w n : Nat} : signedOf (w + 1) n = n ↔ n < 2 ^ w := by
  have hpow : 2 ^ (w + 1) = 2 ^ w * 2 := pow_succ 2 w
  constructor
  · intro h
    have hlt := Int.bmod_lt (x := n) (m := 2 ^ (w + 1)) (by positivity)
    rw [signedOf] at h
    rw [h, hpow] at hlt
    omega
  · intro h
    exact signedOf_natCast (by omega)

/-- Sums may be taken before or after a conversion. -/
theorem signedOf_signedOf_add (w : Nat) (a b : Int) : signedOf w (signedOf w a + b) = signedOf w (a + b) :=
  Int.bmod_add_bmod

/-- Converting to an unsigned type and back to the signed one of the same width. -/
theorem signedOf_unsignedOf (w : Nat) (i : Int) : signedOf w (unsignedOf w i) = signedOf w i := by
  have h : (0 : Int) < 2 ^ w := by positivity
  have hn := Int.emod_nonneg i h.ne'
  unfold signedOf unsignedOf
  rw [Int.toNat_of_nonneg hn]
  exact_mod_cast Int.emod_bmod i (2 ^ w)

/-- Differences may be taken before or after a conversion. -/
theorem unsignedOf_sub_unsignedOf (w : Nat) (a b : Int) : unsignedOf w (a - unsignedOf w b) = unsignedOf w (a - b) := by
  have h : (0 : Int) < 2 ^ w := by positivity
  unfold unsignedOf
  rw [Int.toNat_of_nonneg (Int.emod_nonneg b h.ne'), Int.sub_emod_emod]

theorem unsignedOf_unsignedOf_sub (w : Nat) (a b : Int) : unsignedOf w (unsignedOf w a - b) = unsignedOf w (a - b) := by
  have h : (0 : Int) < 2 ^ w := by positivity
  unfold unsignedOf
  rw [Int.toNat_of_nonneg (Int.emod_nonneg a h.ne'), Int.emod_sub_emod]

/-- Products may be taken before or after a conversion. -/
theorem unsignedOf_unsignedOf_mul (w : Nat) (a b : Int) : unsignedOf w (unsignedOf w a * b) = unsignedOf w (a * b) := by
  have h : (0 : Int) < 2 ^ w := by positivity
  unfold unsignedOf
  rw [Int.toNat_of_nonneg (Int.emod_nonneg a h.ne'), Int.mul_emod, Int.emod_emod, ← Int.mul_emod]

section Size

/-! The type `size_t` of a 64-bit platform, with `ssize_t` and a 32-bit `int` beside it. -/

def sizeAdd (a b : Nat) : Nat := unsignedOf 64 (a + b)
def sizeSub (a b : Nat) : Nat := unsignedOf 64 (a - b)
def sizeMul (a b : Nat) : Nat := unsignedOf 64 (a * b)

variable {a b : Nat}

theorem sizeAdd_eq (h : a + b < 2 ^ 64) : sizeAdd a b = a + b := unsignedOf_eq (by exact_mod_cast h)

theorem sizeAdd_eq_mod (a b : Nat) : sizeAdd a b = (a + b) % 2 ^ 64 := unsignedOf_natCast 64 (a + b)

theorem sizeMul_eq (h : a * b < 2 ^ 64) : sizeMul a b = a * b := unsignedOf_eq (by exact_mod_cast h)

theorem sizeSub_eq (hb : b ≤ a) (ha : a < 2 ^ 64) : sizeSub a b = a - b := by
  rw [sizeSub, ← Int.ofNat_sub hb]
  exact unsignedOf_eq (by omega)

theorem sizeSub_of_lt (h : a < b) (hb : b < 2 ^ 64) : sizeSub a b = 2 ^ 64 + a - b := by
  rw [sizeSub, unsignedOf]
  omega

/-- A length that has been an `int` is small, or beyond every object. -/
theorem unsignedOf_signedOf (i : Int) :
    unsignedOf 64 (signedOf 32 i) < 2 ^ 31 ∨ 2 ^ 64 - 2 ^ 31 ≤ unsignedOf 64 (signedOf 32 i) := by
  have hmin := Int.le_bmod (x := i) (m := 2 ^ 32) (by decide)
  have hmax := Int.bmod_lt (x := i) (m := 2 ^ 32) (by decide)
  rw [signedOf, unsignedOf]
  generalize i.bmod (2 ^ 32) = j at hmin hmax
  omega

/-- `min` of util.h on two `size_t`, which compares them as `int`. -/
def intMin (a b : Nat) : Nat := unsignedOf 64 (min (signedOf 32 a) (signedOf 32 b))

theorem intMin_eq (ha : a < 2 ^ 31) (hb : b < 2 ^ 31) : intMin a b = min a b := by
  have hmin : min (a : Int) b = ((min a b : Nat) : Int) := by omega
  rw [intMin, signedOf_natCast (by omega), signedOf_natCast (by omega), hmin]
  exact unsignedOf_eq (by omega)

/-- A `size_t` difference read as `ssize_t` has the sign it should have. -/
theorem ssize_sizeSub (ha : a < 2 ^ 63) (hb : b < 2 ^ 63) : signedOf 64 (sizeSub a b) = (a : Int) - b := by
  rw [sizeSub, signedOf_unsignedOf, signedOf_eq] <;> omega

end Size

section Uint32

/-! `min` and `max` of util.h on values that are converted to `int`, stored in a `uint32_t`. -/

def uintMin (a b : Int) : Nat := unsignedOf 32 (min (signedOf 32 a) (signedOf 32 b))
def uintMax (a b : Int) : Nat := unsignedOf 32 (max (signedOf 32 a) (signedOf 32 b))

theorem signedOf_signedOf (w : Nat) (i : Int) : signedOf w (signedOf w i) = signedOf w i := Int.bmod_bmod

theorem signedOf_uintMax (a b : Int) : signedOf 32 (uintMax a b) = max (signedOf 32 a) (signedOf 32 b) := by
  rw [uintMax, signedOf_unsignedOf]
  rcases max_choice (signedOf 32 a) (signedOf 32 b) with h | h <;> rw [h, signedOf_signedOf]

variable {a b : Nat}

theorem uintMin_eq (ha : a < 2 ^ 31) (hb : b < 2 ^ 31) : uintMin a b = min a b := by
  have hmin : min (a : Int) b = ((min a b : Nat) : Int) := by omega
  rw [uintMin, signedOf_natCast (by omega), signedOf_natCast (by omega), hmin]
  exact unsignedOf_eq (by omega)

theorem uintMax_eq (ha : a < 2 ^ 31) (hb : b < 2 ^ 31) : uintMax a b = max a b := by
  have hmax : max (a : Int) b = ((max a b : Nat) : Int) := by omega
  rw [uintMax, signedOf_natCast (by omega), signedOf_natCast (by omega), hmax]
  exact unsignedOf_eq (by omega)

end Uint32
end Glip.Foundation
