import Glip.CircularBuffer.Positions

/-! The lengths that `cbuf_read` and `cbuf_peek` compute for a request, and the size of a temporary buffer for it. -/
namespace Glip.CircularBuffer
open Foundation
variable {size rd n : Nat}

def Splits (size rd n : Nat) : Prop := ¬ sizeAdd (index size rd) n ≤ size

def sizeToEnd (size rd : Nat) : Int := signedOf 32 (sizeSub size (index size rd))

def atEnd (size rd : Nat) : Nat := unsignedOf 64 (sizeToEnd size rd)

def atStart (size rd n : Nat) : Nat := unsignedOf 64 (n - sizeToEnd size rd)

theorem copyOut_segments (s : Cbuf) (h : Splits size s.rdPtr n) : (copyOut size n).run s =
    (s.data.load (index size s.rdPtr) (atEnd size s.rdPtr)).bind fun bs =>
      (s.data.load 0 (atStart size s.rdPtr n)).map fun bs' => (bs ++ bs', s) := by
  rw [copyOut, Prog.run_bind, loadRd, Prog.run_atomic, Option.bind_some, Prog.run_ite, if_neg h, Prog.run_bind,
    Prog.run_atomic, Option.bind_some, Prog.run_bind, Prog.run_atomic, Option.bind_some, Prog.run_bind, loadData,
    Prog.run_atomic, Option.bind_map, ← sizeToEnd, ← atEnd]
  refine congrArg _ (funext fun bs => ?_)
  rw [Function.comp_apply, Prog.run_bind, loadData, Prog.run_atomic, Option.bind_map, ← atStart]
  cases s.data.load 0 (atStart size s.rdPtr n) <;> rfl

theorem copyToTmp_segments (s : Cbuf) : (copyToTmp size n).run s =
    ((copyToReadTmp 0 (index size s.rdPtr) (atEnd size s.rdPtr)).run s).bind fun t =>
      (copyToReadTmp (atEnd size s.rdPtr) 0 (atStart size s.rdPtr n)).run t.2 := by
  rw [copyToTmp, Prog.run_bind, loadRd, Prog.run_atomic, Option.bind_some, Prog.run_bind, Prog.run_atomic, Option.bind_some,
    Prog.run_bind, atEnd, atStart, sizeToEnd]

/-- The law of the sizes for a request of `n` bytes at a read pointer. -/
structure SizeLaw (size rd n : Nat) : Prop where
  first : Splits size rd n → atEnd size rd = size - index size rd
  sum : Splits size rd n → atEnd size rd + atStart size rd n = n
  enough : n ≤ calcBufsize n size
  atMost : calcBufsize n size ≤ size
  sizeToEnd : Splits size rd n → sizeToEnd size rd = sizeSub size (index size rd)
  powTwo : signedOf 32 (2 ^ (log2Size n + 1)) = 2 ^ (log2Size n + 1)

/-- `cbuf_init` accepts powers of two, and their positions are inside the array. -/
theorem index_lt_of_init (hinit : (cbufInit size).isSome) (hsize : size < 2 ^ 64) (rd : Nat) :
    index size rd < size ∧ size ≤ 2 ^ 63 := by
  rw [cbufInit] at hinit
  split at hinit
  case isFalse => cases hinit
  case isTrue h =>
    obtain ⟨h₀, hand⟩ := h
    have hsub : sizeSub size 1 = size - 1 := sizeSub_eq (by omega) hsize
    rw [hsub] at hand
    obtain ⟨k, rfl⟩ := (Nat.and_sub_one_eq_zero_iff_isPowerOfTwo h₀).mp hand
    have hk : k < 64 := (Nat.pow_lt_pow_iff_right (by norm_num)).mp hsize
    have hle : index (2 ^ k) rd ≤ 2 ^ k - 1 := by
      rw [index, hsub]
      exact Nat.and_le_right
    exact ⟨Nat.lt_of_le_pred (Nat.two_pow_pos k) hle, Nat.pow_le_pow_right (by norm_num) (by omega)⟩

theorem splits_iff (hinit : (cbufInit size).isSome) (hsize : size < 2 ^ 64) (hn : n ≤ size) :
    Splits size rd n ↔ size - index size rd < n := by
  obtain ⟨hlt, hle⟩ := index_lt_of_init hinit hsize rd
  rw [Splits, sizeAdd_eq (by omega)]
  omega

/-- The two copies are right as long as the end of the array is not too far away for an `int`. -/
theorem segments_iff (hinit : (cbufInit size).isSome) (hsize : size < 2 ^ 64) (hn : n ≤ size) (h : Splits size rd n) :
    (atEnd size rd = size - index size rd ∧ atEnd size rd + atStart size rd n = n) ↔
      size - index size rd < 2 ^ 31 := by
  obtain ⟨hlt, hle⟩ := index_lt_of_init hinit hsize rd
  have hsplit := (splits_iff hinit hsize hn).mp h
  constructor
  · rintro ⟨hfirst, -⟩
    by_contra hge
    -- a negative distance is a length beyond every size
    have hlength : unsignedOf 64 (sizeToEnd size rd) = size - index size rd := hfirst
    have hrange := unsignedOf_signedOf (sizeSub size (index size rd))
    rw [← sizeToEnd, hlength] at hrange
    omega
  · intro hsmall
    obtain ⟨hfirst, hrest⟩ := sizeToEnd_eq hsize hlt.le hsmall
    have hsecond := hrest n hsplit.le (by omega)
    rw [atEnd, atStart, sizeToEnd, hfirst, hsecond]
    omega

/-- A temporary buffer is large enough as long as the power of two is not beyond the bits of an `int`. -/
theorem le_calcBufsize_iff (hinit : (cbufInit size).isSome) (hsize : size < 2 ^ 64) (h₀ : 0 < n) (hn : n ≤ size) :
    n ≤ calcBufsize n size ↔ n < 2 ^ 31 := by
  constructor
  · intro h
    by_contra hge
    rw [calcBufsize_eq_zero (by omega)] at h
    omega
  · intro h
    exact le_calcBufsize_of_lt (index_lt_of_init hinit hsize 0).2 h₀ hn h

theorem size_law_iff (hinit : (cbufInit size).isSome) (hsize : size < 2 ^ 64) (hn : n ≤ size) :
    SizeLaw size rd n ↔ n < 2 ^ 30 := by
  obtain ⟨hlt, hle⟩ := index_lt_of_init hinit hsize rd
  obtain rfl | h₀ := Nat.eq_zero_or_pos n
  · have hwhole : ¬ Splits size rd 0 := fun h => absurd ((splits_iff hinit hsize hn).mp h) (Nat.not_lt_zero _)
    have hlog : log2Size 0 = 0 := by simp [log2Size]
    refine iff_of_true ⟨fun h => absurd h hwhole, fun h => absurd h hwhole, Nat.zero_le _, ?_, fun h => absurd h hwhole, ?_⟩
      (by decide)
    · exact calcBufsize_le _ _
    · rw [hlog]
      rfl
  have hpow : ((2 : Int) ^ (log2Size n + 1)) = ((2 ^ (log2Size n + 1) : Nat) : Int) := by push_cast; rfl
  have hbits : 2 ^ (log2Size n + 1) < 2 ^ 31 ↔ n < 2 ^ 30 := by
    rw [Nat.pow_lt_pow_iff_right (by decide), ← log2Size_lt h₀]
    omega
  constructor
  · intro h
    have hvalue := h.powTwo
    rw [hpow] at hvalue
    exact hbits.mp (signedOf_natCast_iff.mp hvalue)
  · intro hsmall
    have hend : Splits size rd n → size - index size rd < 2 ^ 31 := fun h => by
      have hsplit := (splits_iff hinit hsize hn).mp h
      omega
    have hsegments (h : Splits size rd n) := (segments_iff hinit hsize hn h).mpr (hend h)
    have henough := le_calcBufsize h₀ hn hsmall
    refine ⟨fun h => (hsegments h).1, fun h => (hsegments h).2, henough, calcBufsize_le _ _, fun h => ?_, ?_⟩
    · have hdistance := hend h
      rw [sizeToEnd, sizeSub_eq hlt.le hsize]
      exact signedOf_natCast_iff.mpr hdistance
    · rw [hpow]
      exact signedOf_natCast_iff.mpr (hbits.mpr hsmall)

theorem size_law_four : SizeLaw 4 3 2 := (size_law_iff (by decide) (by decide) (by decide)).mpr (by decide)

/-- In a full buffer of 2 ^ 32 bytes whose pointer stands at the second byte, -1 is the distance to the end,
and a temporary buffer would have no byte at all. -/
theorem size_law_large : (cbufInit (2 ^ 32)).isSome ∧ ¬ SizeLaw (2 ^ 32) 1 (2 ^ 32) ∧ sizeToEnd (2 ^ 32) 1 = -1 ∧
    atEnd (2 ^ 32) 1 = 2 ^ 64 - 1 ∧ calcBufsize (2 ^ 32) (2 ^ 32) = 0 := by
  have hinit : (cbufInit (2 ^ 32)).isSome := by
    rw [cbufInit, if_pos (by decide)]
    rfl
  have hend : sizeToEnd (2 ^ 32) 1 = -1 := by decide
  refine ⟨hinit, fun h => ?_, hend, ?_, calcBufsize_eq_zero (by decide)⟩
  · exact absurd h.enough (by rw [calcBufsize_eq_zero (by decide)]; decide)
  · rw [atEnd, hend]
    decide

end Glip.CircularBuffer
