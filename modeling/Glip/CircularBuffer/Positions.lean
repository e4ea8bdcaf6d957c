import Glip.CircularBuffer.Cbuf

/-! Pointers of the circular buffer. They run modulo twice the size, so that the
two ways in which they can meet in the array, empty and full, stay apart. -/
namespace Glip.CircularBuffer
open Foundation

/-- The sizes that `cbuf_init` accepts, up to where `2 * size` is still a `size_t`. -/
def IsSize (size : Nat) : Prop := ∃ k ≤ 62, size = 2 ^ k

def distance (size wr rd : Nat) : Nat := if rd ≤ wr then wr - rd else wr + 2 * size - rd

variable {size wr rd p n : Nat}

theorem IsSize.pos (h : IsSize size) : 0 < size := by
  obtain ⟨k, -, rfl⟩ := h
  positivity

theorem IsSize.le (h : IsSize size) : size ≤ 2 ^ 62 := by
  obtain ⟨k, hk, rfl⟩ := h
  exact Nat.pow_le_pow_right (by norm_num) hk

theorem index_eq (h : IsSize size) (p : Nat) : index size p = p % size := by
  have hp := h.pos
  have hl := h.le
  obtain ⟨k, hk, rfl⟩ := h
  rw [index, sizeSub_eq hp (by omega), Nat.and_two_pow_sub_one_eq_mod]

theorem ptrAdd_eq_mod (h : IsSize size) (hp : p < 2 * size) (hn : n ≤ size) :
    ptrAdd size p n = (p + n) % (2 * size) := by
  have hs := h.pos
  have hl := h.le
  rw [ptrAdd, sizeAdd_eq (by omega), sizeMul_eq (by omega), sizeSub_eq (by omega) (by omega)]
  obtain ⟨k, hk, rfl⟩ := h
  rw [← pow_succ', Nat.and_two_pow_sub_one_eq_mod]

theorem ptrAdd_eq (h : IsSize size) (hp : p < 2 * size) (hn : n ≤ size) :
    ptrAdd size p n = if p + n < 2 * size then p + n else p + n - 2 * size := by
  have hs := h.pos
  rw [ptrAdd_eq_mod h hp hn]
  split
  · exact Nat.mod_eq_of_lt ‹_›
  · rw [Nat.mod_eq_sub_mod (by omega), Nat.mod_eq_of_lt (by omega)]

theorem ptrAdd_lt (h : IsSize size) (hp : p < 2 * size) (hn : n ≤ size) : ptrAdd size p n < 2 * size := by
  rw [ptrAdd_eq h hp hn]
  split <;> omega

/-- Adding to a pointer moves its place in the array by the same amount. -/
theorem ptrAdd_modEq (h : IsSize size) (hp : p < 2 * size) (hn : n ≤ size) :
    ptrAdd size p n ≡ p + n [MOD size] := by
  rw [ptrAdd_eq_mod h hp hn]
  exact Nat.mod_mod_of_dvd _ (Dvd.intro_left 2 rfl)

theorem mod_size (hp : p < 2 * size) : p % size = if p < size then p else p - size := by
  split
  · exact Nat.mod_eq_of_lt ‹_›
  · rw [Nat.mod_eq_sub_mod (by omega), Nat.mod_eq_of_lt (by omega)]

/-- The array begins again where its end is reached. -/
theorem wrap_modEq (hs : IsSize size) {k : Nat} (hk : k = size - p % size) : 0 ≡ p + k [MOD size] := by
  have hlt := Nat.mod_lt p hs.pos
  have hz : (p + k) % size = 0 := by
    rw [← Nat.mod_add_mod, hk, Nat.add_sub_cancel' hlt.le, Nat.mod_self]
  exact (Nat.zero_mod size).trans hz.symm

/-- The `int size_to_end` of a split read, and what is left of `n` bytes behind it. -/
theorem sizeToEnd_eq (hsize : size < 2 ^ 64) (hp : p ≤ size) (hsmall : size - p < 2 ^ 31) :
    unsignedOf 64 (signedOf 32 (sizeSub size p)) = size - p ∧
      ∀ n, size - p ≤ n → n < 2 ^ 64 →
        unsignedOf 64 (n - signedOf 32 (sizeSub size p)) = n - (size - p) := by
  rw [sizeSub_eq hp (by omega), signedOf_natCast (by omega), unsignedOf_eq (by omega)]
  refine ⟨rfl, fun n hn hlt => ?_⟩
  rw [← Int.ofNat_sub hn, unsignedOf_eq (by omega)]

@[simp] theorem distance_self (size p : Nat) : distance size p p = 0 := by
  simp [distance]

theorem distance_eq_zero (hr : rd < 2 * size) : distance size wr rd = 0 ↔ wr = rd := by
  unfold distance
  split <;> omega

/-- Where the write pointer stands, seen from the read pointer. -/
theorem distance_modEq (hr : rd < 2 * size) : wr ≡ rd + distance size wr rd [MOD size] := by
  unfold distance
  split
  · rw [Nat.add_sub_cancel' ‹_›]
  · rw [show rd + (wr + 2 * size - rd) = wr + size * 2 by omega]
    exact (Nat.add_mul_mod_self_left wr size 2).symm

theorem distance_advanceWr (h : IsSize size) (hw : wr < 2 * size) (hr : rd < 2 * size)
    (hn : distance size wr rd + n ≤ size) :
    distance size (ptrAdd size wr n) rd = distance size wr rd + n := by
  have hs := h.pos
  have hle : n ≤ size := by omega
  rw [ptrAdd_eq h hw hle]
  unfold distance at hn ⊢
  split_ifs at hn ⊢ <;> omega

theorem distance_advanceRd (h : IsSize size) (hw : wr < 2 * size) (hr : rd < 2 * size)
    (hd : distance size wr rd ≤ size) (hn : n ≤ distance size wr rd) :
    distance size wr (ptrAdd size rd n) = distance size wr rd - n := by
  have hs := h.pos
  rw [ptrAdd_eq h hr (hn.trans hd)]
  unfold distance at hn hd ⊢
  split_ifs at hn hd ⊢ <;> omega

private theorem xor_size (h : IsSize size) (hr : rd < 2 * size) :
    rd ^^^ size = if rd < size then rd + size else rd - size := by
  obtain ⟨k, -, rfl⟩ := h
  have hk : 0 < 2 ^ k := by positivity
  have hd : (rd ^^^ 2 ^ k) / 2 ^ k = rd / 2 ^ k ^^^ 1 := by
    rw [Nat.xor_div_two_pow, Nat.div_self hk]
  have hm : (rd ^^^ 2 ^ k) % 2 ^ k = rd % 2 ^ k := by
    rw [Nat.xor_mod_two_pow, Nat.mod_self, Nat.xor_zero]
  rw [← Nat.div_add_mod (rd ^^^ 2 ^ k) (2 ^ k), hd, hm, mod_size hr]
  split
  · rw [Nat.div_eq_of_lt ‹_›, Nat.zero_xor]
    omega
  · rw [show rd / 2 ^ k = 1 from Nat.div_eq_of_lt_le (by omega) (by omega)]
    simp

/-- The test of `cbuf_is_full` compares the distance with the size. -/
theorem full_iff (h : IsSize size) (hw : wr < 2 * size) (hr : rd < 2 * size) :
    wr = rd ^^^ size ↔ distance size wr rd = size := by
  have hs := h.pos
  rw [xor_size h hr]
  unfold distance
  split <;> split <;> omega

/-- The masked subtraction of `cbuf_fill_level` takes full for empty. -/
theorem levelOf_eq (h : IsSize size) (hw : wr < 2 * size) (hr : rd < 2 * size)
    (hd : distance size wr rd ≤ size) :
    levelOf size wr rd = if distance size wr rd = size then 0 else distance size wr rd := by
  have hs := h.pos
  have hl := h.le
  have hwl := Nat.mod_lt wr hs
  have hrl := Nat.mod_lt rd hs
  have hcast : ∀ {i : Int}, 0 ≤ i → i < 2 ^ 63 → unsignedOf 64 i = i.toNat := fun h₀ h₁ => by
    obtain ⟨n, rfl⟩ := Int.eq_ofNat_of_zero_le h₀
    exact unsignedOf_eq (by omega)
  have hlevel : levelOf size wr rd =
      if wr % size < rd % size then wr % size + size - rd % size else wr % size - rd % size := by
    simp only [levelOf, index_eq h]
    rw [ssize_sizeSub (by omega) (by omega)]
    split
    · rw [if_pos (by omega), signedOf_unsignedOf, signedOf_eq (by omega) (by omega),
        hcast (by omega) (by omega)]
      omega
    · rw [if_neg (by omega), hcast (by omega) (by omega)]
      omega
  rw [hlevel, mod_size hw, mod_size hr]
  unfold distance at hd ⊢
  split_ifs at hd ⊢ <;> omega

theorem lt_two_pow_log2Size (n : Nat) : n < 2 ^ (log2Size n + 1) := by
  induction n using log2Size.induct with
  | case1 n h =>
    rw [log2Size, if_pos h]
    rw [Nat.shiftRight_one] at h
    omega
  | case2 n h ih =>
    rw [log2Size, if_neg h, pow_succ]
    rw [Nat.shiftRight_one] at ih ⊢
    omega

theorem two_pow_log2Size_le {n : Nat} (hn : 0 < n) : 2 ^ log2Size n ≤ n := by
  induction n using log2Size.induct with
  | case1 n h =>
    rw [log2Size, if_pos h]
    omega
  | case2 n h ih =>
    rw [log2Size, if_neg h, pow_succ]
    rw [Nat.shiftRight_one] at ih ⊢
    have := ih (by rw [Nat.shiftRight_one] at h; omega)
    omega

theorem log2Size_lt {k : Nat} (h₀ : 0 < n) : log2Size n < k ↔ n < 2 ^ k := by
  constructor
  · intro h
    exact (lt_two_pow_log2Size n).trans_le (Nat.pow_le_pow_right (by norm_num) h)
  · intro h
    exact (Nat.pow_lt_pow_iff_right (by norm_num)).mp ((two_pow_log2Size_le h₀).trans_lt h)

/-- A power of two as an `int`, up to the largest one and at the first that is negative. -/
private theorem signedOf_two_pow {k : Nat} (h : k < 31) : signedOf 32 (2 ^ k) = (2 ^ k : Nat) := by
  have hlt : 2 ^ k < 2 ^ 31 := Nat.pow_lt_pow_right (by norm_num) h
  have hc : ((2 : Int) ^ k) = ((2 ^ k : Nat) : Int) := by push_cast; rfl
  rw [hc, signedOf_natCast (by omega)]

theorem calcBufsize_le (sizeReq sizeMax : Nat) : calcBufsize sizeReq sizeMax ≤ sizeMax := by
  unfold calcBufsize
  dsimp only
  split
  · exact le_rfl
  · exact Nat.le_of_not_gt ‹_›

/-- The temporary buffer that `_cbuf_calc_bufsize` asks for is large enough. -/
theorem le_calcBufsize (h₀ : 0 < n) (hn : n ≤ size) (hlt : n < 2 ^ 30) :
    n ≤ calcBufsize n size := by
  have hlog := (log2Size_lt h₀).mpr hlt
  have hpow := lt_two_pow_log2Size n
  have hb : 2 ^ (log2Size n + 1) ≤ 2 ^ 30 := Nat.pow_le_pow_right (by norm_num) hlog
  unfold calcBufsize
  rw [signedOf_two_pow (by omega), unsignedOf_eq (by omega)]
  dsimp only
  split <;> omega

/-- It is large enough for less than 2 ^ 31 bytes, whatever the size of the buffer: where the
power of two is negative as an `int`, it exceeds every size. -/
theorem le_calcBufsize_of_lt (hs : size ≤ 2 ^ 63) (h₀ : 0 < n) (hn : n ≤ size) (hlt : n < 2 ^ 31) :
    n ≤ calcBufsize n size := by
  by_cases hsmall : n < 2 ^ 30
  · exact le_calcBufsize h₀ hn hsmall
  · have hlog : log2Size n = 30 := by
      have hlt' := (log2Size_lt h₀).mpr hlt
      have hge := mt (log2Size_lt h₀).mp hsmall
      omega
    have hp : unsignedOf 64 (signedOf 32 (2 ^ (log2Size n + 1))) = 2 ^ 64 - 2 ^ 31 := by
      rw [hlog]
      rfl
    unfold calcBufsize
    rw [hp]
    dsimp only
    split <;> omega

/-- From 2 ^ 31 bytes on nothing is left of the power of two. -/
theorem calcBufsize_eq_zero (hlt : 2 ^ 31 ≤ n) : calcBufsize n size = 0 := by
  have hge := mt (log2Size_lt (k := 31) (n := n) (by omega)).mp (by omega)
  obtain ⟨j, hj⟩ := Nat.exists_eq_add_of_le (Nat.le_of_not_lt hge)
  have hp : (2 : Int) ^ (log2Size n + 1) = 2 ^ 32 * 2 ^ j := by
    rw [← pow_add, hj]
    exact congrArg _ (by omega)
  have hzero : signedOf 32 (2 ^ (log2Size n + 1)) = 0 := by
    rw [hp, signedOf]
    exact Int.bmod_eq_zero_of_dvd (Dvd.intro _ rfl)
  unfold calcBufsize
  rw [hzero]
  exact if_neg (Nat.not_lt_zero _)

/-- The masked subtraction is below the size, whatever the pointers are. -/
theorem levelOf_lt (h : IsSize size) (wr rd : Nat) : levelOf size wr rd < size := by
  have hs := h.pos
  have hl := h.le
  have hwl := Nat.mod_lt wr hs
  have hrl := Nat.mod_lt rd hs
  simp only [levelOf, index_eq h]
  rw [ssize_sizeSub (by omega) (by omega)]
  split
  · rw [signedOf_unsignedOf, signedOf_eq (by omega) (by omega), unsignedOf, Int.emod_eq_of_lt (by omega) (by omega)]
    omega
  · rw [unsignedOf, Int.emod_eq_of_lt (by omega) (by omega)]
    omega

end Glip.CircularBuffer
