import Glip.CircularBuffer.QueueRefinement

/-! The non-blocking functions of util.c: they transfer as much as there is. -/
namespace Glip.CircularBuffer
open Foundation Prog

section
variable (size : Nat)

/-- `gb_util_cbuf_read`: a return code that is not 0, or the value of `*size_read` and the bytes stored in `data`. -/
def gbUtilCbufRead (n : Nat) : Prog Cbuf (Except Int (Nat × List UInt8)) := do
  let fill ← fillLevel size
  let sizeReadReq := intMin fill n
  let r ← cbufRead size sizeReadReq
  if r.1 = .ok then pure (.ok (sizeReadReq, r.2)) else pure (.error (-1))

/-- `gb_util_cbuf_write`, with `*size_written`. The free level is kept in an `unsigned int`. -/
def gbUtilCbufWrite (data : List UInt8) : Prog Cbuf (Rc × Nat) := do
  let free ← freeLevel size
  let bufSizeFree := unsignedOf 32 free
  let sizeWritten := if data.length > bufSizeFree then bufSizeFree else data.length
  let rc ← cbufWrite size (data.take sizeWritten)
  pure (rc, sizeWritten)

/-- A read of at most `n` bytes takes all bytes that are there up to this number. -/
def ReadsMin (s : Cbuf) (n : Nat) : Prop :=
  ∃ t, (gbUtilCbufRead size n).run s = some (.ok (min n (used size s), (contents size s).take n), t) ∧
    Ok size False t ∧ contents size t = (contents size s).drop n

def WritesMin (s : Cbuf) (data : List UInt8) : Prop :=
  ∃ t, (gbUtilCbufWrite size data).run s = some ((.ok, min data.length (size - used size s)), t) ∧
    Ok size False t ∧ contents size t = contents size s ++ data.take (size - used size s)

end

section
variable {size n : Nat} {oom : Prop} {s : Cbuf} {data : List UInt8}

/-- A number as `int`, which is its remainder or 2 ^ 32 less than that. -/
theorem signedOf_cases (a : Nat) :
    a % 2 ^ 32 < 2 ^ 31 ∧ signedOf 32 a = (a % 2 ^ 32 : Nat) ∨
      2 ^ 31 ≤ a % 2 ^ 32 ∧ signedOf 32 a = (a % 2 ^ 32 : Nat) - 2 ^ 32 := by
  have hcast := Int.bmod_def (a : Int) (2 ^ 32)
  unfold signedOf
  omega

theorem intMin_eq_iff {a b m : Nat} (hm : m ≤ 2 ^ 62) :
    intMin a b = m ↔ min (signedOf 32 a) (signedOf 32 b) = m := by
  have ha := signedOf_cases a
  have hb := signedOf_cases b
  generalize hi : min (signedOf 32 a) (signedOf 32 b) = i
  have hlow : -2 ^ 31 ≤ i := by omega
  have hhigh : i < 2 ^ 31 := by omega
  rw [intMin, hi, unsignedOf]
  clear ha hb hi
  omega

/-- A size that comes out of the comparison as `int` is not larger than the two, unless it is negative there. -/
theorem intMin_le {a b : Nat} (h : intMin a b ≤ 2 ^ 62) : intMin a b ≤ a ∧ intMin a b ≤ b ∧ intMin a b < 2 ^ 31 := by
  have hmin := (intMin_eq_iff h).mp rfl
  have ha := signedOf_cases a
  have hb := signedOf_cases b
  generalize intMin a b = m at hmin
  omega

/-- The smaller number comes out of the comparison as `int` if it is still the smaller one there. -/
theorem intMin_eq_min_iff {a b : Nat} (ha : a ≤ 2 ^ 62) :
    intMin a b = min a b ↔ max a b % 2 ^ 32 < 2 ^ 31 ∧ min a b ≤ max a b % 2 ^ 32 := by
  have hcasta := signedOf_cases a
  have hcastb := signedOf_cases b
  rw [intMin_eq_iff (by omega)]
  rcases Nat.le_total a b with hab | hab
  · rw [Nat.min_eq_left hab, Nat.max_eq_right hab]
    omega
  · rw [Nat.min_eq_right hab, Nat.max_eq_left hab]
    omega

theorem gbUtilCbufRead_run (hs : IsSize size) (h : Ok size oom s) :
    (gbUtilCbufRead size n).run s = ((cbufRead size (intMin (used size s) n)).run s).map fun r =>
      (if r.1.1 = .ok then .ok (intMin (used size s) n, r.1.2) else .error (-1), r.2) := by
  rw [gbUtilCbufRead, run_bind, fillLevel_run, levelIn_eq_used hs h, Option.bind_some]
  generalize intMin (used size s) n = req
  rw [run_bind, Option.map_eq_bind]
  congr 1
  funext r
  simp only [run_ite, run_pure, Function.comp]
  split <;> rfl

theorem readsMin_iff (hs : IsSize size) (h : Ok size False s) :
    ReadsMin size s n ↔ intMin (used size s) n = min (used size s) n := by
  have hle := h.fill.trans hs.le
  rw [ReadsMin, gbUtilCbufRead_run hs h]
  constructor
  · rintro ⟨t, hrun, -⟩
    obtain ⟨r, -, hr⟩ := Option.map_eq_some_iff.mp hrun
    split at hr
    · simp only [Prod.mk.injEq, Except.ok.injEq] at hr
      rw [hr.1.1, Nat.min_comm]
    · simp at hr
  · intro hmin
    have hsmall : min (used size s) n < 2 ^ 31 := by
      obtain ⟨hmod, hlt⟩ := (intMin_eq_min_iff hle).mp hmin
      exact hlt.trans_lt hmod
    obtain ⟨t, hrun, hok, hcont⟩ := cbufRead_run hs (near_of_lt fun _ => hsmall) h
    rw [if_pos (Nat.min_le_left _ _)] at hrun hcont
    have htake : (contents size s).take (min (used size s) n) = (contents size s).take n :=
      List.take_eq_take_iff.mpr (by simp [Nat.min_comm])
    have hdrop : (contents size s).drop (min (used size s) n) = (contents size s).drop n :=
      List.drop_eq_drop_iff.mpr (by simp [Nat.min_comm])
    refine ⟨t, ?_, hok, hcont.trans hdrop⟩
    rw [hmin, hrun, Option.map_some, htake, Nat.min_comm]
    rfl

theorem writesMin_iff (hs : IsSize size) (h : Ok size False s) :
    WritesMin size s data ↔ data.length ≤ (size - used size s) % 2 ^ 32 ∨ size - used size s < 2 ^ 32 := by
  have hfill := h.fill
  unfold WritesMin
  simp only [gbUtilCbufWrite, run_bind, freeLevel_run_eq hs h, Option.bind_some, unsignedOf_natCast]
  generalize hw : (if data.length > (size - used size s) % 2 ^ 32 then (size - used size s) % 2 ^ 32
    else data.length) = w
  have hmin : w = min data.length ((size - used size s) % 2 ^ 32) := by
    rw [← hw]
    split <;> omega
  have hlen : (data.take w).length = w := by
    rw [List.length_take]
    omega
  have hmod := Nat.mod_le (size - used size s) (2 ^ 32)
  obtain ⟨t, hrun, hok, hcont⟩ := cbufWrite_run hs h (data.take w)
  rw [if_pos (by omega)] at hrun hcont
  rw [hrun, Option.bind_some, run_pure]
  constructor
  · rintro ⟨t', heq, -⟩
    simp only [Option.some.injEq, Prod.mk.injEq] at heq
    omega
  · intro hfits
    have hall : w = min data.length (size - used size s) := by omega
    refine ⟨t, by rw [hall], hok, ?_⟩
    rw [hcont, hall]
    exact congrArg _ (List.take_eq_take_iff.mpr (by simp [Nat.min_comm]))

/-- A read takes the smaller one of the two numbers exactly if it is the smaller one as `int` too, and a write
exactly if the free level, where it matters, fits in 32 bits. -/
theorem helpers_min_iff (hs : IsSize size) (h : Ok size False s) (n : Nat) (data : List UInt8) :
    (ReadsMin size s n ↔
        max (used size s) n % 2 ^ 32 < 2 ^ 31 ∧ min (used size s) n ≤ max (used size s) n % 2 ^ 32) ∧
      (WritesMin size s data ↔
        data.length ≤ (size - used size s) % 2 ^ 32 ∨ size - used size s < 2 ^ 32) :=
  ⟨(readsMin_iff hs h).trans (intMin_eq_min_iff (h.fill.trans hs.le)), writesMin_iff hs h⟩

def turned : Prog Cbuf Unit := do
  let _ ← cbufWrite 4 [1, 2, 3]
  let _ ← cbufRead 4 2
  let _ ← cbufWrite 4 [4, 5]

theorem turned_run : (turned.run (newCbuf 4)).isSome := by decide +kernel

/-- A buffer that holds three bytes, around its end: they are all read when nine are asked for, and of two more
bytes the first one is written. -/
theorem helpers_min_iff_turned :
    let s := ((turned.run (newCbuf 4)).get turned_run).2
    contents 4 s = [3, 4, 5] ∧ ReadsMin 4 s 9 ∧ WritesMin 4 s [6, 7] := by
  intro s
  have hs : IsSize 4 := ⟨2, by decide, rfl⟩
  have hok : Ok 4 False s := by
    constructor
    case writeTmp => exact .inr (Nat.zero_le _)
    case readTmp => exact .inr (Nat.zero_le _)
    all_goals decide +kernel
  obtain ⟨hreads, hwrites⟩ := helpers_min_iff hs hok 9 [6, 7]
  exact ⟨by decide +kernel, hreads.mpr (by decide +kernel), hwrites.mpr (by decide +kernel)⟩

/-- A read of one byte from a buffer of 2 ^ 31 bytes that a write has filled, and a write of one byte to an empty
buffer of 2 ^ 32 bytes. -/
theorem helpers_min_fail :
    (∃ s, (gbUtilCbufWrite (2 ^ 31) (List.replicate (2 ^ 31) 0)).run (newCbuf (2 ^ 31)) = some ((.ok, 2 ^ 31), s) ∧
      ¬ReadsMin (2 ^ 31) s 1) ∧ ¬WritesMin (2 ^ 32) (newCbuf (2 ^ 32)) [0] := by
  have hs : IsSize (2 ^ 31) := ⟨31, by decide, rfl⟩
  have hs' : IsSize (2 ^ 32) := ⟨32, by decide, rfl⟩
  have hempty (size : Nat) : used size (newCbuf size) = 0 := distance_self size 0
  constructor
  · have hwrites : WritesMin (2 ^ 31) (newCbuf (2 ^ 31)) (List.replicate (2 ^ 31) 0) :=
      (writesMin_iff hs (newCbuf_ok hs)).mpr (.inr (by rw [hempty]; decide))
    obtain ⟨s, hrun, hok, hcont⟩ := hwrites
    have hused : used (2 ^ 31) s = 2 ^ 31 := by
      rw [← contents_length, hcont, hempty, newCbuf_contents, List.nil_append, List.length_take, List.length_replicate]
      decide
    rw [hempty, List.length_replicate] at hrun
    refine ⟨s, hrun, fun h => ?_⟩
    have hmin := (intMin_eq_min_iff (hok.fill.trans hs.le)).mp ((readsMin_iff hs hok).mp h)
    rw [hused] at hmin
    exact absurd hmin.1 (by decide)
  · rw [writesMin_iff hs' (newCbuf_ok hs'), hempty]
    decide

end
end Glip.CircularBuffer
