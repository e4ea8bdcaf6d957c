import Glip.Foundation.MachineInteger
import Mathlib.Tactic.Ring

/-! The point in time up to which the blocking functions of util.c wait. -/
namespace Glip.CircularBuffer
open Foundation

/-- A `time_t` and a `long`, both of 64 bits. -/
structure Timespec where
  tvSec : Int
  tvNsec : Int

def nsecPerSec : Nat := 1000000000

/-- The quotient, which is counted in a `uint32_t`, and the remainder. -/
def iterDivU64Rem (divisor : Nat) (hpos : 0 < divisor) (dividend ret : Nat) : Nat × Nat :=
  if divisor ≤ dividend then iterDivU64Rem divisor hpos (dividend - divisor) (unsignedOf 32 (ret + 1))
  else (ret, dividend)
termination_by dividend

def timespecAddNs (a : Timespec) (ns : Nat) : Timespec :=
  let r := iterDivU64Rem nsecPerSec (by decide) (unsignedOf 64 (a.tvNsec + ns)) 0
  ⟨signedOf 64 (a.tvSec + r.1), signedOf 64 r.2⟩

/-- What both functions do with their timeout. The products are of type `unsigned int`. -/
def deadline (start : Timespec) (timeout : Nat) : Timespec :=
  timespecAddNs start (unsignedOf 32 (unsignedOf 32 (timeout * 1000) * 1000))

namespace Timespec

structure Normalised (t : Timespec) : Prop where
  sec_fits : -2 ^ 63 ≤ t.tvSec ∧ t.tvSec < 2 ^ 63
  nsec_nonneg : 0 ≤ t.tvNsec
  nsec_lt : t.tvNsec < nsecPerSec

def nanoseconds (t : Timespec) : Int := t.tvSec * nsecPerSec + t.tvNsec

end Timespec

/-- The subtraction loop divides, as long as the quotient fits in its counter. -/
theorem iterDivU64Rem_eq {divisor dividend ret : Nat} (hpos : 0 < divisor) (hret : ret + dividend / divisor < 2 ^ 32) :
    iterDivU64Rem divisor hpos dividend ret = (ret + dividend / divisor, dividend % divisor) := by
  induction dividend using Nat.strong_induction_on generalizing ret with
  | _ dividend ih =>
    rw [iterDivU64Rem]
    split
    · rename_i hle
      have hdiv : dividend / divisor = (dividend - divisor) / divisor + 1 := Nat.div_eq_sub_div hpos hle
      have hsum : ret + 1 + (dividend - divisor) / divisor = ret + dividend / divisor := by
        rw [hdiv, Nat.add_assoc, Nat.add_comm 1]
      have hstep : unsignedOf 32 ((ret : Int) + 1) = ret + 1 :=
        unsignedOf_eq (n := ret + 1) (by have := Nat.div_pos hle hpos; omega)
      rw [hstep, ih (dividend - divisor) (by omega) (by rwa [hsum]), hsum, Nat.mod_eq_sub_mod hle]
    · rename_i hlt
      rw [Nat.div_eq_of_lt (by omega), Nat.mod_eq_of_lt (by omega), Nat.add_zero]

/-- Both products together keep of the timeout what fits in an `unsigned int`. -/
theorem deadline_eq (start : Timespec) (timeout : Nat) :
    deadline start timeout = timespecAddNs start (timeout * 1000000 % 2 ^ 32) := by
  have hns : ((timeout : Int) * 1000) * 1000 = (timeout * 1000000 : Nat) := by
    push_cast
    ring
  rw [deadline, unsignedOf_unsignedOf_mul, hns, unsignedOf_natCast]

section Deadline
variable {start : Timespec} (h : start.Normalised)
include h

theorem timespecAddNs_eq {ns : Nat} (hns : ns < 2 ^ 32) : ∃ n : Nat, (n : Int) = start.tvNsec + ns ∧
    timespecAddNs start ns = ⟨signedOf 64 (start.tvSec + (n / nsecPerSec : Nat)), (n % nsecPerSec : Nat)⟩ := by
  obtain ⟨-, hnonneg, hlt⟩ := h
  obtain ⟨n, hn⟩ := Int.eq_ofNat_of_zero_le (show 0 ≤ start.tvNsec + ns by omega)
  unfold nsecPerSec at *
  refine ⟨n, hn.symm, ?_⟩
  rw [timespecAddNs, hn, unsignedOf_eq (by omega), iterDivU64Rem_eq _ (by unfold nsecPerSec; omega)]
  dsimp only
  unfold nsecPerSec
  rw [Nat.zero_add, signedOf_natCast (by omega)]

/-- Whatever the timeout, the result is normalised. -/
theorem deadline_normalised (timeout : Nat) : (deadline start timeout).Normalised := by
  obtain ⟨n, -, heq⟩ := timespecAddNs_eq h (Nat.mod_lt (timeout * 1000000) (show 0 < 2 ^ 32 by decide))
  rw [deadline_eq, heq]
  refine ⟨?_, Int.natCast_nonneg _, Int.ofNat_lt.mpr (Nat.mod_lt n (by decide))⟩
  have hle := Int.le_bmod (x := start.tvSec + (n / nsecPerSec : Nat)) (m := 2 ^ 64) (by decide)
  have hlt := Int.bmod_lt (x := start.tvSec + (n / nsecPerSec : Nat)) (m := 2 ^ 64) (by decide)
  dsimp only
  unfold signedOf
  omega

/-- The sum wraps around where a `time_t` ends. -/
theorem nanoseconds_timespecAddNs {ns : Nat} (hns : ns < 2 ^ 32) : (timespecAddNs start ns).nanoseconds =
    if start.nanoseconds + ns < 2 ^ 63 * nsecPerSec then start.nanoseconds + ns
    else start.nanoseconds + ns - 2 ^ 64 * nsecPerSec := by
  obtain ⟨n, hn, heq⟩ := timespecAddNs_eq h hns
  obtain ⟨⟨hlow, hhigh⟩, hnonneg, hlt⟩ := h
  have hwrap := Int.bmod_def (start.tvSec + (n / nsecPerSec : Nat)) (2 ^ 64)
  have hstart : start.nanoseconds = start.tvSec * nsecPerSec + start.tvNsec := rfl
  have hsum : (timespecAddNs start ns).nanoseconds =
      (start.tvSec + (n / nsecPerSec : Nat)).bmod (2 ^ 64) * nsecPerSec + (n % nsecPerSec : Nat) := by rw [heq]; rfl
  unfold nsecPerSec at *
  split <;> omega

/-- The deadline is the start time plus the timeout exactly if the timeout has less than 2 ^ 32 nanoseconds and the
sum is a time that a `time_t` can hold. -/
theorem deadline_iff (timeout : Nat) :
    (deadline start timeout).Normalised ∧
        (deadline start timeout).nanoseconds = start.nanoseconds + timeout * 1000000 ↔
      timeout * 1000000 < 2 ^ 32 ∧ start.nanoseconds + timeout * 1000000 < 2 ^ 63 * nsecPerSec := by
  have hlt := Nat.mod_lt (timeout * 1000000) (show 0 < 2 ^ 32 by decide)
  rw [and_iff_right (deadline_normalised h timeout), deadline_eq, nanoseconds_timespecAddNs h hlt]
  unfold nsecPerSec
  split <;> omega

end Deadline

theorem deadline_iff_four_seconds :
    (deadline ⟨1000, 999999999⟩ 4000).Normalised ∧
      (deadline ⟨1000, 999999999⟩ 4000).nanoseconds = (⟨1000, 999999999⟩ : Timespec).nanoseconds + 4000 * 1000000 :=
  (deadline_iff ⟨by decide, by decide, by decide⟩ 4000).mpr (by decide)

/-- At the start of the epoch with 4295 ms, the deadline is 32704 ns later. -/
theorem deadline_early : deadline ⟨0, 0⟩ 4295 = ⟨0, 32704⟩ := by
  rw [deadline_eq, timespecAddNs, iterDivU64Rem_eq _ (by decide)]
  rfl

end Glip.CircularBuffer
