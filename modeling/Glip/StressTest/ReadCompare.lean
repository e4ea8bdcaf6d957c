import Glip.StressTest.LfsrCycle

/-! `read_stress_test_compare` of io_stress_test.c compares a block of received words with the random words. -/
namespace Glip.StressTest
open Foundation

def Width.bytes : Width → Nat
  | w16 => 2
  | w32 => 4

def Width.bswap : (w : Width) → BitVec w.bits → BitVec w.bits
  | w16, v => v.extractLsb' 0 8 ++ v.extractLsb' 8 8
  | w32, v => v.extractLsb' 0 8 ++ v.extractLsb' 8 8 ++ v.extractLsb' 16 8 ++ v.extractLsb' 24 8

/-- The two arrays as words, the state of the generator, and the word indices that have been read or written in
either array so far. -/
structure CompareState (w : Width) where
  readData : List (BitVec w.bits)
  rndWord : List (BitVec w.bits)
  lfsr : BitVec w.bits
  touched : List Nat

namespace CompareState
variable {w : Width} (s : CompareState w)

def touch (i : Nat) : CompareState w := { s with touched := i :: s.touched }

def inc : CompareState w := { s with lfsr := w.lfsrInc s.lfsr }

def loadRead (i : Nat) : Option (BitVec w.bits × CompareState w) := (s.readData[i]?).map (·, s.touch i)

def loadRnd (i : Nat) : Option (BitVec w.bits × CompareState w) := (s.rndWord[i]?).map (·, s.touch i)

/-- An access outside an array has no result. -/
def storeRead (i : Nat) (v : BitVec w.bits) : Option (CompareState w) :=
  if i < s.readData.length then some { s.touch i with readData := s.readData.set i v } else none

def storeRnd (i : Nat) (v : BitVec w.bits) : Option (CompareState w) :=
  if i < s.rndWord.length then some { s.touch i with rndWord := s.rndWord.set i v } else none

end CompareState

section
variable {w : Width}

def printExpected (i : Nat) : Nat → Nat → CompareState w → Option (CompareState w)
  | 0, _, s => some s
  | m + 1, j, s => do
    let s ← (if j > i then s.inc.storeRnd j s.inc.lfsr else some s)
    let (_, s) ← s.loadRnd j
    printExpected i m (j + 1) s

def printRead : Nat → Nat → CompareState w → Option (CompareState w)
  | 0, _, s => some s
  | m + 1, j, s => do
    let (_, s) ← s.loadRead j
    printRead m (j + 1) s

/-- The loop that walks from the expected word at `i` to the received one, for as many passes as there is fuel. -/
def findDistance (i : Nat) : Nat → Nat → CompareState w → Option (Nat × CompareState w)
  | 0, _, _ => none
  | fuel + 1, distance, s => do
    let (read, s) ← s.loadRead i
    let (rnd, s) ← s.loadRnd i
    let s ← s.storeRnd i (w.lfsrInc rnd)
    if w.bswap read ≠ w.lfsrInc rnd then findDistance i fuel (distance + 1) s else some (distance, s)

def reportError (fuel n i : Nat) (s : CompareState w) : Option (CompareState w) := do
  let s ← printExpected i 1 i s
  let s ← printRead 1 i s
  let lastWords := if i ≥ 5 then 5 else i
  let nextWords := if n - i ≥ 5 then 5 else n - i
  let s ← printExpected i (lastWords + nextWords + 1) (i - lastWords) s
  let s ← printRead (lastWords + nextWords + 1) (i - lastWords) s
  let (_, s) ← findDistance i fuel 1 s
  let s ← printRead 1 i s
  s.storeRead 0 (w.bswap 0xDEAD)

def compareWords (fuel n : Nat) : Nat → Nat → CompareState w → Option (Int × CompareState w)
  | 0, _, s => some (0, s)
  | k + 1, i, s => do
    let s ← s.inc.storeRnd i s.inc.lfsr
    let (read, s) ← s.loadRead i
    let (rnd, s) ← s.loadRnd i
    if w.bswap read ≠ rnd then (reportError fuel n i s).map (-1, ·) else compareWords fuel n k (i + 1) s

def readStressTestCompare (fuel sizeRead : Nat) (s : CompareState w) : Option (Int × CompareState w) :=
  compareWords fuel (sizeRead / w.bytes) (sizeRead / w.bytes) 0 s

def Differs (s : CompareState w) (i : Nat) : Prop := w.bswap (s.readData.getD i 0) ≠ w.lfsrInc^[i + 1] s.lfsr

/-- What the comparison of `n` words should give. -/
structure Compared (s : CompareState w) (n : Nat) (rv : Int) (s' : CompareState w) : Prop where
  code : rv = -1 ∨ rv = 0
  error : rv = -1 ↔ ∃ i < n, Differs s i
  advanced : rv = 0 → s'.lfsr = w.lfsrInc^[n] s.lfsr
  touched : ∀ j ∈ s'.touched, j < n

def CompareLaw (s : CompareState w) (sizeRead : Nat) : Prop :=
  ∃ fuel rv s', readStressTestCompare fuel sizeRead s = some (rv, s') ∧ Compared s (sizeRead / w.bytes) rv s'

/-- The first word that differs, if there is one, is not 0 and has five more words behind it. -/
def ErrorInside (s : CompareState w) (n : Nat) : Prop :=
  ∀ i < n, (∀ j < i, ¬ Differs s j) → Differs s i → w.bswap (s.readData.getD i 0) ≠ 0 ∧ i + 6 ≤ n

end

/-- A part of the report, which uses the indices of `A` and leaves the received words and the word at `i` alone. -/
structure Uses {w : Width} (i : Nat) (A : Set Nat) (s s' : CompareState w) : Prop where
  readData : s'.readData = s.readData
  length : s'.rndWord.length = s.rndWord.length
  rnd : s'.rndWord[i]? = s.rndWord[i]?
  touched : ∀ t, t ∈ s'.touched ↔ t ∈ s.touched ∨ t ∈ A

section Report
variable {w : Width} {i n m j : Nat} {A B : Set Nat} {s s' t : CompareState w} {v : BitVec w.bits}

theorem Uses.trans (h : Uses i A s s') (h' : Uses i B s' t) : Uses i (A ∪ B) s t := by
  refine ⟨h'.readData.trans h.readData, h'.length.trans h.length, h'.rnd.trans h.rnd, fun k => ?_⟩
  rw [h'.touched, h.touched, or_assoc]
  rfl

theorem Uses.congr (h : Uses i A s t) (hAB : A = B) : Uses i B s t := hAB ▸ h

theorem loadRead_eq : s.loadRead j = some (v, s') ↔ s.readData[j]? = some v ∧ s' = s.touch j := by
  simp [CompareState.loadRead, eq_comm]

theorem loadRnd_eq : s.loadRnd j = some (v, s') ↔ s.rndWord[j]? = some v ∧ s' = s.touch j := by
  simp [CompareState.loadRnd, eq_comm]

theorem uses_touch (s : CompareState w) (i j : Nat) : Uses i {j} s (s.touch j) :=
  ⟨rfl, rfl, rfl, fun t => by simp [CompareState.touch, or_comm]⟩

/-- A generated word is stored behind the error. -/
theorem uses_storeRnd (hij : i < j) (h : s.inc.storeRnd j v = some s') : Uses i {j} s s' := by
  unfold CompareState.storeRnd at h
  split at h
  case isFalse => cases h
  case isTrue =>
    cases h
    refine ⟨rfl, List.length_set, ?_, fun t => by simp [CompareState.touch, CompareState.inc, or_comm]⟩
    exact List.getElem?_set_ne hij.ne'

theorem printExpected_uses (h : printExpected i m j s = some s') : Uses i (Set.Ico j (j + m)) s s' := by
  induction m generalizing j s with
  | zero =>
    cases h
    exact ⟨rfl, rfl, rfl, fun t => by simp⟩
  | succ m ih =>
    rw [printExpected] at h
    obtain ⟨s₁, h₁, h⟩ := Option.bind_eq_some_iff.mp h
    obtain ⟨⟨v, s₂⟩, h₂, h⟩ := Option.bind_eq_some_iff.mp h
    obtain ⟨-, rfl⟩ := loadRnd_eq.mp h₂
    have hload := (uses_touch s₁ i j).trans (ih h)
    have hrange : {j} ∪ Set.Ico (j + 1) (j + 1 + m) = Set.Ico j (j + (m + 1)) := by
      ext k
      simp only [Set.mem_union, Set.mem_singleton_iff, Set.mem_Ico]
      omega
    split at h₁
    · have hstore := (uses_storeRnd ‹_› h₁).trans hload
      exact hstore.congr (by rw [← Set.union_assoc, Set.union_self, hrange])
    · cases h₁
      exact hload.congr hrange

theorem printRead_uses (i : Nat) (h : printRead m j s = some s') : Uses i (Set.Ico j (j + m)) s s' := by
  induction m generalizing j s with
  | zero =>
    cases h
    exact ⟨rfl, rfl, rfl, fun t => by simp⟩
  | succ m ih =>
    rw [printRead] at h
    obtain ⟨⟨v, s₂⟩, h₂, h⟩ := Option.bind_eq_some_iff.mp h
    obtain ⟨-, rfl⟩ := loadRead_eq.mp h₂
    refine ((uses_touch s i j).trans (ih h)).congr ?_
    ext k
    simp only [Set.mem_union, Set.mem_singleton_iff, Set.mem_Ico]
    omega

/-- Inside the arrays they succeed. -/
theorem printExpected_isSome (h : j + m ≤ s.rndWord.length) : ∃ s', printExpected i m j s = some s' := by
  induction m generalizing j s with
  | zero => exact ⟨s, rfl⟩
  | succ m ih =>
    have hlt : j < s.rndWord.length := by omega
    rw [printExpected]
    split
    · obtain ⟨s', hs'⟩ := ih (j := j + 1) (s := ⟨s.readData, s.rndWord.set j s.inc.lfsr, s.inc.lfsr, j :: j :: s.touched⟩)
        (by rw [List.length_set]; omega)
      refine ⟨s', ?_⟩
      rw [← hs']
      simp [CompareState.storeRnd, CompareState.loadRnd, CompareState.inc, CompareState.touch, hlt]
    · obtain ⟨s', hs'⟩ := ih (j := j + 1) (s := s.touch j) (by change _ ≤ s.rndWord.length; omega)
      refine ⟨s', ?_⟩
      rw [← hs']
      simp [CompareState.loadRnd, hlt]

theorem printRead_isSome (h : j + m ≤ s.readData.length) : ∃ s', printRead m j s = some s' := by
  induction m generalizing j s with
  | zero => exact ⟨s, rfl⟩
  | succ m ih =>
    have hlt : j < s.readData.length := by omega
    obtain ⟨s', hs'⟩ := ih (j := j + 1) (s := s.touch j) (by change _ ≤ s.readData.length; omega)
    refine ⟨s', ?_⟩
    rw [← hs', printRead]
    simp [CompareState.loadRead, hlt]

def stepped (s : CompareState w) (i : Nat) (rnd : BitVec w.bits) : CompareState w :=
  ⟨s.readData, s.rndWord.set i (w.lfsrInc rnd), s.lfsr, i :: i :: i :: s.touched⟩

theorem findDistance_step {read rnd : BitVec w.bits} (hread : s.readData[i]? = some read) (hrnd : s.rndWord[i]? = some rnd)
    (fuel d : Nat) : findDistance i (fuel + 1) d s =
      if w.bswap read ≠ w.lfsrInc rnd then findDistance i fuel (d + 1) (stepped s i rnd)
      else some (d, stepped s i rnd) := by
  have hlt : i < s.rndWord.length := (List.getElem?_eq_some_iff.mp hrnd).1
  have hload : s.loadRead i = some (read, s.touch i) := loadRead_eq.mpr ⟨hread, rfl⟩
  have hload' : (s.touch i).loadRnd i = some (rnd, (s.touch i).touch i) := loadRnd_eq.mpr ⟨hrnd, rfl⟩
  have hstore : ((s.touch i).touch i).storeRnd i (w.lfsrInc rnd) = some (stepped s i rnd) :=
    if_pos hlt
  simp only [findDistance, hload, hload', hstore, Option.bind_eq_bind, Option.bind_some]

theorem stepped_rnd {rnd : BitVec w.bits} (hrnd : s.rndWord[i]? = some rnd) :
    (stepped s i rnd).rndWord[i]? = some (w.lfsrInc rnd) :=
  List.getElem?_set_self (List.getElem?_eq_some_iff.mp hrnd).1

/-- The loop ends exactly when the received word is ahead. -/
theorem findDistance_spec {read rnd : BitVec w.bits} (hread : s.readData[i]? = some read) (hrnd : s.rndWord[i]? = some rnd)
    {fuel d r : Nat} (h : findDistance i fuel d s = some (r, s')) :
    (∃ k, w.lfsrInc^[k + 1] rnd = w.bswap read) ∧ s'.readData = s.readData ∧
      ∀ t, t ∈ s'.touched ↔ t ∈ s.touched ∨ t = i := by
  induction fuel generalizing d s rnd with
  | zero => cases h
  | succ fuel ih =>
    have hstep (t : Nat) : t ∈ (stepped s i rnd).touched ↔ t ∈ s.touched ∨ t = i := by
      simp only [stepped, List.mem_cons]
      tauto
    rw [findDistance_step hread hrnd] at h
    split at h
    · obtain ⟨⟨k, hk⟩, hdata, htouched⟩ := ih (s := stepped s i rnd) hread (stepped_rnd hrnd) h
      refine ⟨⟨k + 1, hk⟩, hdata, fun t => ?_⟩
      rw [htouched, hstep, or_assoc, or_self]
    · rename_i heq
      cases h
      exact ⟨⟨0, (not_not.mp heq).symm⟩, rfl, hstep⟩

theorem findDistance_isSome {read rnd : BitVec w.bits} (hread : s.readData[i]? = some read) (hrnd : s.rndWord[i]? = some rnd)
    {k : Nat} (hk : w.lfsrInc^[k + 1] rnd = w.bswap read) (d : Nat) : ∃ r s', findDistance i (k + 1) d s = some (r, s') := by
  induction k generalizing d s rnd with
  | zero =>
    rw [findDistance_step hread hrnd]
    exact ⟨d, _, if_neg (not_not.mpr hk.symm)⟩
  | succ k ih =>
    rw [findDistance_step hread hrnd]
    split
    · exact ih (s := stepped s i rnd) hread (stepped_rnd hrnd) hk (d + 1)
    · exact ⟨d, _, rfl⟩

def windowEnd (n i : Nat) : Nat := i + if n - i ≥ 5 then 5 else n - i

section
variable {read rnd : BitVec w.bits} (hread : s.readData[i]? = some read) (hrnd : s.rndWord[i]? = some rnd)
include hread hrnd

theorem reportError_spec {fuel : Nat} (h : reportError fuel n i s = some t) :
    (∃ k, w.lfsrInc^[k + 1] rnd = w.bswap read) ∧ (∀ k ∈ t.touched, k ∈ s.touched ∨ k ≤ windowEnd n i) ∧
      windowEnd n i ∈ t.touched := by
  rw [reportError] at h
  obtain ⟨s₁, h₁, h⟩ := Option.bind_eq_some_iff.mp h
  obtain ⟨s₂, h₂, h⟩ := Option.bind_eq_some_iff.mp h
  obtain ⟨s₃, h₃, h⟩ := Option.bind_eq_some_iff.mp h
  obtain ⟨s₄, h₄, h⟩ := Option.bind_eq_some_iff.mp h
  obtain ⟨⟨d, s₅⟩, h₅, h⟩ := Option.bind_eq_some_iff.mp h
  obtain ⟨s₆, h₆, h⟩ := Option.bind_eq_some_iff.mp h
  have huses := (((printExpected_uses h₁).trans (printRead_uses i h₂)).trans (printExpected_uses h₃)).trans
    (printRead_uses i h₄)
  obtain ⟨hreach, -, hdistance⟩ := findDistance_spec (huses.readData ▸ hread) (huses.rnd ▸ hrnd) h₅
  have hlast := printRead_uses i h₆
  have htouched (k : Nat) : k ∈ t.touched ↔ k = 0 ∨ k ∈ s₆.touched := by
    unfold CompareState.storeRead at h
    split at h
    · cases h
      simp [CompareState.touch]
    · cases h
  have hend : i - (if i ≥ 5 then 5 else i) + ((if i ≥ 5 then 5 else i) + (if n - i ≥ 5 then 5 else n - i) + 1) =
      windowEnd n i + 1 := by
    rw [windowEnd]
    split <;> omega
  have hle : i ≤ windowEnd n i := Nat.le_add_right _ _
  simp only [htouched, hlast.touched, hdistance, huses.touched, Set.mem_union, Set.mem_Ico, hend]
  refine ⟨hreach, ?_, ?_⟩
  · intro k hk
    by_cases hs : k ∈ s.touched
    · exact .inl hs
    · simp only [hs, false_or] at hk
      exact .inr (by omega)
  · exact .inr (.inl (.inl (.inr (.inr ⟨(Nat.sub_le _ _).trans hle, Nat.lt_succ_self _⟩))))

theorem reportError_isSome (hreach : ∃ k, w.lfsrInc^[k + 1] rnd = w.bswap read) (hlen : s.rndWord.length = s.readData.length)
    (hn : n ≤ s.readData.length) (hend : windowEnd n i < n) : ∃ fuel t, reportError fuel n i s = some t := by
  obtain ⟨k, hk⟩ := hreach
  have hle : i ≤ windowEnd n i := Nat.le_add_right _ _
  have hwindow : i - (if i ≥ 5 then 5 else i) + ((if i ≥ 5 then 5 else i) + (if n - i ≥ 5 then 5 else n - i) + 1) ≤
      s.readData.length := by
    rw [windowEnd] at hend
    split <;> omega
  obtain ⟨s₁, h₁⟩ := printExpected_isSome (i := i) (m := 1) (j := i) (s := s) (by omega)
  have u₁ := printExpected_uses h₁
  obtain ⟨s₂, h₂⟩ := printRead_isSome (m := 1) (j := i) (s := s₁) (by rw [u₁.readData]; omega)
  have u₂ := u₁.trans (printRead_uses i h₂)
  obtain ⟨s₃, h₃⟩ := printExpected_isSome (i := i) (s := s₂) (by rw [u₂.length, hlen]; exact hwindow)
  have u₃ := u₂.trans (printExpected_uses h₃)
  obtain ⟨s₄, h₄⟩ := printRead_isSome (s := s₃) (by rw [u₃.readData]; exact hwindow)
  have u₄ := u₃.trans (printRead_uses i h₄)
  have hread₄ : s₄.readData[i]? = some read := by rw [u₄.readData, hread]
  have hrnd₄ : s₄.rndWord[i]? = some rnd := by rw [u₄.rnd, hrnd]
  obtain ⟨d, s₅, h₅⟩ := findDistance_isSome hread₄ hrnd₄ hk 1
  have hdata := (findDistance_spec hread₄ hrnd₄ h₅).2.1.trans u₄.readData
  obtain ⟨s₆, h₆⟩ := printRead_isSome (m := 1) (j := i) (s := s₅) (by rw [hdata]; omega)
  have hpos : 0 < s₆.readData.length := by
    rw [(printRead_uses i h₆).readData, hdata]
    omega
  refine ⟨k + 1, { s₆.touch 0 with readData := s₆.readData.set 0 (w.bswap 0xDEAD) }, ?_⟩
  simp only [reportError, h₁, h₂, h₃, h₄, h₅, h₆, Option.bind_eq_bind, Option.bind_some]
  exact if_pos hpos

end

/-- A report ends, and stays inside the words of the block, exactly when the received word is on the cycle and there
are five more words. -/
theorem reportError_iff {read rnd : BitVec w.bits} (hread : s.readData[i]? = some read) (hrnd : s.rndWord[i]? = some rnd)
    (hne : rnd ≠ 0) (hi : i < n) (hn : n ≤ s.readData.length) (hlen : s.rndWord.length = s.readData.length)
    (htouched : ∀ t ∈ s.touched, t < n) :
    (∃ fuel t, reportError fuel n i s = some t ∧ ∀ k ∈ t.touched, k < n) ↔ w.bswap read ≠ 0 ∧ i + 6 ≤ n := by
  have hend : windowEnd n i < n ↔ i + 6 ≤ n := by
    rw [windowEnd]
    split <;> omega
  rw [← lfsrInc_reaches_iff w hne, ← hend]
  constructor
  · rintro ⟨fuel, t, hrun, hinside⟩
    obtain ⟨hreach, -, hmem⟩ := reportError_spec hread hrnd hrun
    exact ⟨hreach, hinside _ hmem⟩
  · rintro ⟨hreach, hlt⟩
    obtain ⟨fuel, t, hrun⟩ := reportError_isSome hread hrnd hreach hlen hn hlt
    obtain ⟨-, hmem, -⟩ := reportError_spec hread hrnd hrun
    refine ⟨fuel, t, hrun, fun k hk => ?_⟩
    obtain hk | hk := hmem k hk
    · exact htouched k hk
    · exact hk.trans_lt hlt

end Report

section Loop
variable {w : Width} {i n k : Nat} {s₀ s : CompareState w}

structure Matching (s₀ s : CompareState w) (i : Nat) : Prop where
  readData : s.readData = s₀.readData
  length : s.rndWord.length = s₀.rndWord.length
  lfsr : s.lfsr = w.lfsrInc^[i] s₀.lfsr
  touched : ∀ t ∈ s.touched, t < i
  equal : ∀ j < i, ¬ Differs s₀ j

def compared (s : CompareState w) (i : Nat) : CompareState w :=
  ⟨s.readData, s.rndWord.set i (w.lfsrInc s.lfsr), w.lfsrInc s.lfsr, i :: i :: i :: s.touched⟩

theorem getElem?_word {words : List (BitVec w.bits)} (h : i < words.length) : words[i]? = some (words.getD i 0) := by
  rw [List.getD_eq_getElem?_getD, List.getElem?_eq_getElem h]
  rfl

theorem Matching.compared_touched (hm : Matching s₀ s i) : ∀ t ∈ (compared s i).touched, t < i + 1 := by
  intro t ht
  simp only [compared, List.mem_cons] at ht
  obtain rfl | rfl | rfl | ht := ht
  · exact Nat.lt_succ_self _
  · exact Nat.lt_succ_self _
  · exact Nat.lt_succ_self _
  · exact Nat.lt_succ_of_lt (hm.touched t ht)

/-- The first word that differs decides. -/
theorem errorInside_iff_first (hequal : ∀ j < i, ¬ Differs s j) (hi : i < n) (hd : Differs s i) :
    ErrorInside s n ↔ w.bswap (s.readData.getD i 0) ≠ 0 ∧ i + 6 ≤ n := by
  constructor
  · intro h
    exact h i hi hequal hd
  · intro h j hj hfirst hdj
    obtain rfl : j = i := by
      obtain hlt | heq | hgt := Nat.lt_trichotomy j i
      · exact absurd hdj (hequal j hlt)
      · exact heq
      · exact absurd hd (hfirst i hgt)
    exact h

/-- A pass of the loop. -/
theorem compareWords_step (hm : Matching s₀ s i) (hi : i < s₀.readData.length)
    (hlen : s₀.rndWord.length = s₀.readData.length) (fuel n k : Nat) :
    (Differs s₀ i → compareWords fuel n (k + 1) i s = (reportError fuel n i (compared s i)).map (-1, ·)) ∧
      (¬ Differs s₀ i → compareWords fuel n (k + 1) i s = compareWords fuel n k (i + 1) (compared s i) ∧
        Matching s₀ (compared s i) (i + 1)) := by
  have hread : s.readData[i]? = some (s₀.readData.getD i 0) := by
    rw [hm.readData, getElem?_word hi]
  have hlt : i < s.rndWord.length := by
    rw [hm.length, hlen]
    exact hi
  have hstep : compareWords fuel n (k + 1) i s =
      if w.bswap (s₀.readData.getD i 0) ≠ w.lfsrInc s.lfsr then (reportError fuel n i (compared s i)).map (-1, ·)
      else compareWords fuel n k (i + 1) (compared s i) := by
    simp only [compareWords, CompareState.inc, CompareState.storeRnd, CompareState.loadRead, CompareState.loadRnd, hlt,
      if_true, hread, CompareState.touch, List.getElem?_set_self, Option.map_some, Option.bind_eq_bind, Option.bind_some]
    rfl
  have hdiffers : Differs s₀ i ↔ w.bswap (s₀.readData.getD i 0) ≠ w.lfsrInc s.lfsr := by
    rw [Differs, hm.lfsr, Function.iterate_succ_apply']
  refine ⟨fun h => hstep.trans (if_pos (hdiffers.mp h)), fun h => ⟨hstep.trans (if_neg (mt hdiffers.mpr h)), ?_⟩⟩
  refine ⟨hm.readData, List.length_set.trans hm.length, ?_, hm.compared_touched, fun j hj => ?_⟩
  · rw [compared, hm.lfsr, Function.iterate_succ_apply']
  · obtain rfl | hj := Nat.eq_or_lt_of_le (Nat.le_of_lt_succ hj)
    · exact h
    · exact hm.equal j hj

theorem compareWords_iff (hne : s₀.lfsr ≠ 0) (hlen : s₀.rndWord.length = s₀.readData.length) (hn : n ≤ s₀.readData.length)
    (hm : Matching s₀ s i) (hk : i + k = n) :
    (∃ fuel rv s', compareWords fuel n k i s = some (rv, s') ∧ Compared s₀ n rv s') ↔ ErrorInside s₀ n := by
  induction k generalizing i s with
  | zero =>
    obtain rfl : i = n := hk
    have hnone : ¬ ∃ j < i, Differs s₀ j := fun ⟨j, hj, hd⟩ => hm.equal j hj hd
    refine iff_of_true ⟨0, 0, s, rfl, .inr rfl, ?_, fun _ => hm.lfsr, hm.touched⟩ fun j hj _ hd => absurd hd (hm.equal j hj)
    exact iff_of_false (by decide) hnone
  | succ k ih =>
    have hi : i < s₀.readData.length := by omega
    by_cases hd : Differs s₀ i
    · have hrun (fuel : Nat) := (compareWords_step hm hi hlen fuel n k).1 hd
      have hread : (compared s i).readData[i]? = some (s₀.readData.getD i 0) := by
        rw [compared, hm.readData, getElem?_word hi]
      have hrnd : (compared s i).rndWord[i]? = some (w.lfsrInc^[i + 1] s₀.lfsr) := by
        rw [Function.iterate_succ_apply', ← hm.lfsr]
        exact List.getElem?_set_self (by rw [hm.length, hlen]; exact hi)
      have hreport := reportError_iff (n := n) hread hrnd (iterate_lfsrInc_ne_zero w hne _) (by omega)
        (by rw [compared, hm.readData]; exact hn)
        (by rw [compared, List.length_set, hm.length, hlen, hm.readData])
        (fun t ht => Nat.lt_of_lt_of_le (hm.compared_touched t ht) (by omega))
      rw [errorInside_iff_first hm.equal (by omega) hd, ← hreport]
      constructor
      · rintro ⟨fuel, rv, s', hs, hc⟩
        rw [hrun, Option.map_eq_some_iff] at hs
        obtain ⟨t, ht, he⟩ := hs
        cases he
        exact ⟨fuel, _, ht, hc.touched⟩
      · rintro ⟨fuel, t, ht, hinside⟩
        have hend : compareWords fuel n (k + 1) i s = some (-1, t) := by
          rw [hrun, ht]
          rfl
        exact ⟨fuel, -1, t, hend, .inl rfl, iff_of_true rfl ⟨i, by omega, hd⟩, fun h => absurd h (by decide), hinside⟩
    · have hrun (fuel : Nat) := (compareWords_step hm hi hlen fuel n k).2 hd
      have hrest := ih (hrun 0).2 (by omega)
      rw [← hrest]
      simp only [(hrun _).1]

theorem matching_start (hstart : s.touched = []) : Matching s s 0 := ⟨rfl, rfl, rfl, by simp [hstart], nofun⟩

instance : Decidable (Differs s i) := inferInstanceAs (Decidable (_ ≠ _))

instance : Decidable (ErrorInside s n) :=
  inferInstanceAs (Decidable (∀ i < n, (∀ j < i, ¬ Differs s j) → Differs s i → _ ≠ _ ∧ i + 6 ≤ n))

theorem read_compare_iff (w : Width) (s : CompareState w) (sizeRead : Nat) (hne : s.lfsr ≠ 0) (hstart : s.touched = [])
    (hlen : s.rndWord.length = s.readData.length) (hn : sizeRead / w.bytes ≤ s.readData.length) :
    CompareLaw s sizeRead ↔ ErrorInside s (sizeRead / w.bytes) :=
  compareWords_iff hne hlen hn (matching_start hstart) (Nat.zero_add _)

/-- The second of eight words is wrong. -/
theorem read_compare_inside : CompareLaw (w := .w16) ⟨[0x200, 7, 0, 0, 0, 0, 0, 0], List.replicate 8 0, 1, []⟩ 16 :=
  (read_compare_iff .w16 _ 16 (by decide) rfl rfl (by decide)).mpr (by decide)

/-- A wrong word with no other behind it, and a word that is 0. -/
theorem read_compare_outside :
    ¬ CompareLaw (w := .w16) ⟨[0x100], [0], 1, []⟩ 2 ∧
      ¬ CompareLaw (w := .w16) ⟨List.replicate 8 0, List.replicate 8 0, 1, []⟩ 16 := by
  refine ⟨fun h => ?_, fun h => ?_⟩
  · have hinside := (compareWords_iff (by decide) rfl (by decide) (matching_start rfl) (Nat.zero_add _)).mp h
    exact absurd hinside (by decide)
  · have hinside := (compareWords_iff (by decide) rfl (by decide) (matching_start rfl) (Nat.zero_add _)).mp h
    exact absurd hinside (by decide)

end Loop
end Glip.StressTest
