import Mathlib.Data.List.Basic
import Mathlib.Tactic.Common

/-! C's `strncmp`. -/
namespace Glip.Foundation

structure ZString where
  chars : List UInt8
  not_zero : 0 ∉ chars
  deriving DecidableEq

def strncmpChars : List UInt8 → List UInt8 → Nat → Int
  | _, _, 0 => 0
  | [], [], _ + 1 => 0
  | [], d :: _, _ + 1 => -d.toNat
  | c :: _, [], _ + 1 => c.toNat
  | c :: s, d :: t, n + 1 => if c = d then strncmpChars s t n else c.toNat - d.toNat

def strncmp (s t : ZString) (n : Nat) : Int := strncmpChars s.chars t.chars n

theorem strncmpChars_eq_zero_iff {s t : List UInt8} (hs : 0 ∉ s) (ht : 0 ∉ t) (n : Nat) :
    strncmpChars s t n = 0 ↔ s.take n = t.take n := by
  have hchar (c : UInt8) (h : (c.toNat : Int) = 0) : 0 = c :=
    UInt8.toNat_inj.mp (by rw [UInt8.toNat_zero]; omega)
  induction n generalizing s t with
  | zero => simp [strncmpChars]
  | succ n ih =>
    cases s with
    | nil => cases t with
      | nil => simp [strncmpChars]
      | cons d t =>
        refine iff_of_false (fun h => ht ?_) nofun
        rw [strncmpChars] at h
        exact List.mem_cons.mpr (.inl (hchar d (by omega)))
    | cons c s => cases t with
      | nil =>
        refine iff_of_false (fun h => hs ?_) nofun
        rw [strncmpChars] at h
        exact List.mem_cons.mpr (.inl (hchar c h))
      | cons d t =>
        rw [strncmpChars, List.take_succ_cons, List.take_succ_cons, List.cons.injEq]
        split
        · rename_i heq
          have hs' : 0 ∉ s := fun h => hs (List.mem_cons_of_mem c h)
          have ht' : 0 ∉ t := fun h => ht (List.mem_cons_of_mem d h)
          exact (ih hs' ht').trans (and_iff_right heq).symm
        · refine iff_of_false (fun h => ‹¬c = d› (UInt8.toNat_inj.mp (by omega))) fun h => ‹¬c = d› h.1

/-- Two strings are the same in their first `n` characters. -/
theorem strncmp_eq_zero_iff (s t : ZString) (n : Nat) : strncmp s t n = 0 ↔ s.chars.take n = t.chars.take n :=
  strncmpChars_eq_zero_iff s.not_zero t.not_zero n

/-- A bound that goes beyond one of the strings compares all of both. -/
theorem strncmp_eq_zero_of_lt {s t : ZString} {n : Nat} (h : s.chars.length < n) : strncmp s t n = 0 ↔ s = t := by
  rw [strncmp_eq_zero_iff, List.take_of_length_le (Nat.le_of_lt h)]
  constructor
  · intro heq
    have hlen : t.chars.length < n := by
      have := congrArg List.length heq
      rw [List.length_take] at this
      omega
    rw [List.take_of_length_le (Nat.le_of_lt hlen)] at heq
    cases s
    cases t
    congr
  · rintro rfl
    rw [List.take_of_length_le (Nat.le_of_lt h)]

/-- As many characters as the first string has only look for it at the beginning of the second one. -/
theorem strncmp_length_eq_zero (s t : ZString) : strncmp s t s.chars.length = 0 ↔ s.chars <+: t.chars := by
  rw [strncmp_eq_zero_iff, List.take_length, List.prefix_iff_eq_take]

end Glip.Foundation
