import Glip.Foundation.MachineInteger
import Mathlib.Data.List.TakeWhile
import Mathlib.Data.Nat.Digits.Defs

/-! C's `strtoul` with base 0 and an `unsigned long` of 64 bits, in the C locale. -/
namespace Glip.Foundation

def ulongMax : Nat := 2 ^ 64 - 1

inductive Errno where
  | zero
  | erange
  deriving DecidableEq

structure StrtoulResult where
  val : Nat
  errno : Errno
  endptr : List UInt8
  deriving DecidableEq

def isSpace (c : UInt8) : Bool := c = 32 ∨ 9 ≤ c ∧ c ≤ 13

def digitOf (c : UInt8) : Nat :=
  if 48 ≤ c ∧ c ≤ 57 then c.toNat - 48
  else if 65 ≤ c ∧ c ≤ 90 then c.toNat - 55
  else if 97 ≤ c ∧ c ≤ 122 then c.toNat - 87
  else 36

def isDigit (base : Nat) (c : UInt8) : Bool := digitOf c < base

def stripSign : List UInt8 → Bool × List UInt8
  | 45 :: s => (true, s)
  | 43 :: s => (false, s)
  | s => (false, s)

/-- The base that a prefix stands for, and what is behind `0x`; a leading 0 is a digit itself. -/
def stripBase : List UInt8 → Nat × List UInt8
  | 48 :: 120 :: s => (16, s)
  | 48 :: 88 :: s => (16, s)
  | 48 :: s => (8, 48 :: s)
  | s => (10, s)

def strtoul (s : List UInt8) : StrtoulResult :=
  let signed := stripSign (s.dropWhile isSpace)
  let based := stripBase signed.2
  let digits := based.2.takeWhile (isDigit based.1)
  let rest := based.2.dropWhile (isDigit based.1)
  if digits = [] then
    -- of `0x` without digits the 0 is the number
    if based.1 = 16 then ⟨0, .zero, signed.2.tail⟩ else ⟨0, .zero, s⟩
  else
    let n := digits.foldl (fun n c => n * based.1 + digitOf c) 0
    if n > ulongMax then ⟨ulongMax, .erange, rest⟩
    else ⟨if signed.1 then unsignedOf 64 (-n) else n, .zero, rest⟩

inductive Numeral : List UInt8 → Nat → Prop where
  | decimal (d : UInt8) (ds : List UInt8) : d ≠ 48 → (∀ c ∈ d :: ds, isDigit 10 c) →
      Numeral (d :: ds) (Nat.ofDigits 10 ((d :: ds).map digitOf).reverse)
  | octal (ds : List UInt8) : (∀ c ∈ ds, isDigit 8 c) → Numeral (48 :: ds) (Nat.ofDigits 8 (ds.map digitOf).reverse)
  | hexadecimal (x : UInt8) (ds : List UInt8) : x = 120 ∨ x = 88 → ds ≠ [] → (∀ c ∈ ds, isDigit 16 c) →
      Numeral (48 :: x :: ds) (Nat.ofDigits 16 (ds.map digitOf).reverse)

def Denotes (s : List UInt8) (n : Nat) : Prop :=
  ∃ space sign t, s = space ++ sign ++ t ∧ (∀ c ∈ space, isSpace c) ∧ (sign = [] ∨ sign = [43]) ∧ Numeral t n

theorem foldl_digits (base : Nat) (ds : List UInt8) (n : Nat) :
    ds.foldl (fun n c => n * base + digitOf c) n = n * base ^ ds.length + Nat.ofDigits base (ds.map digitOf).reverse := by
  induction ds generalizing n with
  | nil => simp
  | cons d ds ih =>
    rw [List.foldl_cons, ih, List.map_cons, Nat.ofDigits_reverse_cons, List.length_map, List.length_cons, Nat.pow_succ]
    ring

section Numeral
variable {s t : List UInt8} {n : Nat}

/-- The digits that the function reads of a number. -/
theorem Numeral.stripBase (h : Numeral t n) : ∃ base u, stripBase t = (base, u) ∧ u ≠ [] ∧ (∀ c ∈ u, isDigit base c) ∧
    n = Nat.ofDigits base (u.map digitOf).reverse := by
  cases h with
  | decimal d ds hd hall =>
    refine ⟨10, d :: ds, ?_, List.cons_ne_nil d ds, hall, rfl⟩
    unfold Foundation.stripBase
    split <;> simp_all
  | octal ds hall =>
    refine ⟨8, 48 :: ds, ?_, List.cons_ne_nil 48 ds, ?_, (Nat.ofDigits_reverse_zero_cons _).symm⟩
    · unfold Foundation.stripBase
      split
      · rename_i heq
        cases heq
        exact absurd (hall 120 List.mem_cons_self) (by decide)
      · rename_i heq
        cases heq
        exact absurd (hall 88 List.mem_cons_self) (by decide)
      · rename_i heq
        cases heq
        rfl
      · rename_i hno
        exact (hno ds rfl).elim
    · exact List.forall_mem_cons.mpr ⟨by decide, hall⟩
  | hexadecimal x ds hx hne hall =>
    refine ⟨16, ds, ?_, hne, hall, rfl⟩
    rcases hx with rfl | rfl <;> rfl

theorem Numeral.head (h : Numeral t n) : ∃ c cs, t = c :: cs ∧ isDigit 10 c := by
  cases h with
  | decimal d ds hd hall => exact ⟨d, ds, rfl, hall d List.mem_cons_self⟩
  | octal ds hall => exact ⟨48, ds, rfl, by decide⟩
  | hexadecimal x ds hx hne hall => exact ⟨48, x :: ds, rfl, by decide⟩

private theorem digit_head {c : UInt8} (h : isDigit 10 c) : isSpace c = false ∧ c ≠ 45 ∧ c ≠ 43 := by
  have hc : 48 ≤ c.toNat := by
    by_contra hlt
    have hle : ¬48 ≤ c := fun h => hlt (UInt8.le_iff_toNat_le.mp h)
    have hle' : ¬65 ≤ c := fun h => hlt (Nat.le_trans (by decide) (UInt8.le_iff_toNat_le.mp h))
    have hle'' : ¬97 ≤ c := fun h => hlt (Nat.le_trans (by decide) (UInt8.le_iff_toNat_le.mp h))
    simp [isDigit, digitOf, hle, hle', hle''] at h
  refine ⟨?_, ?_, ?_⟩
  · simp only [isSpace, decide_eq_false_iff_not, not_or, not_and, UInt8.le_iff_toNat_le]
    refine ⟨fun h => ?_, fun _ h => ?_⟩
    · rw [h] at hc
      exact absurd hc (by decide)
    · exact absurd (Nat.le_trans hc h) (by decide)
  all_goals
    rintro rfl
    exact absurd hc (by decide)

/-- A number that is not too large is read to the end of the string. -/
theorem strtoul_denotes (h : Denotes s n) (hn : n ≤ ulongMax) : strtoul s = ⟨n, .zero, []⟩ ∧ s ≠ [] := by
  obtain ⟨space, sign, t, rfl, hspace, hsign, ht⟩ := h
  obtain ⟨c, cs, rfl, hc⟩ := ht.head
  obtain ⟨hcs, hc45, hc43⟩ := digit_head hc
  obtain ⟨base, u, hbase, hne, hall, rfl⟩ := ht.stripBase
  have hdrop : (space ++ sign ++ c :: cs).dropWhile isSpace = sign ++ c :: cs := by
    rw [List.append_assoc, List.dropWhile_append_of_pos hspace]
    rcases hsign with rfl | rfl
    · exact List.dropWhile_cons_of_neg (by simp [hcs])
    · rfl
  have hstrip : stripSign (sign ++ c :: cs) = (false, c :: cs) := by
    rcases hsign with rfl | rfl
    · unfold stripSign
      split <;> simp_all
    · rfl
  have htake : u.takeWhile (isDigit base) = u := List.takeWhile_eq_self_iff.mpr hall
  have hrest : u.dropWhile (isDigit base) = [] := List.dropWhile_eq_nil_iff.mpr hall
  have hvalue : u.foldl (fun n c => n * base + digitOf c) 0 = Nat.ofDigits base (u.map digitOf).reverse := by
    rw [foldl_digits, Nat.zero_mul, Nat.zero_add]
  refine ⟨?_, by simp⟩
  simp only [strtoul, hdrop, hstrip, hbase, htake, hrest, hvalue, if_neg hne, if_neg (Nat.not_lt.mpr hn)]
  rfl

end Numeral
end Glip.Foundation
