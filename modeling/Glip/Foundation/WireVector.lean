import Mathlib.Data.Nat.Bitwise
import Mathlib.Tactic.Common

/-! Verilog vectors and the bytes of C as natural numbers: part selects,
concatenations and the C expressions that pack and unpack the same fields. -/
namespace Glip.Foundation

def slice (hi lo x : Nat) : Nat := x / 2 ^ lo % 2 ^ (hi + 1 - lo)

def bit (i x : Nat) : Bool := x.testBit i

def concat (w a b : Nat) : Nat := a * 2 ^ w + b

theorem or_one_shiftLeft_one (k : Nat) : 1 ||| k <<< 1 = 2 * k + 1 := by
  rw [Nat.or_comm, ← Nat.shiftLeft_add_eq_or_of_lt (by decide : 1 < 2 ^ 1) k, Nat.shiftLeft_eq]
  omega

theorem shiftLeft_or_byte (k : Nat) (b : UInt8) : k <<< 8 ||| b.toNat = k * 256 + b.toNat := by
  rw [← Nat.shiftLeft_add_eq_or_of_lt b.toNat_lt k, Nat.shiftLeft_eq]

theorem and_ff (n : Nat) : n &&& 0xff = n % 256 := Nat.and_two_pow_sub_one_eq_mod n 8

theorem and_7f (n : Nat) : n &&& 0x7f = n % 128 := Nat.and_two_pow_sub_one_eq_mod n 7

theorem bit_eq (i x : Nat) : bit i x = decide (x / 2 ^ i % 2 = 1) := Nat.testBit_eq_decide_div_mod_eq

end Glip.Foundation
