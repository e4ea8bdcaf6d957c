import Mathlib.Data.List.Basic
import Mathlib.Tactic.Common

/-! Words of whole bytes and their bytes, the most significant one first. -/
namespace Glip.Foundation
variable {n : Nat}

def beByte (word : BitVec (8 * n)) (i : Nat) : BitVec 8 := word.extractLsb' (8 * (n - 1 - i)) 8

def beBytes (word : BitVec (8 * n)) : List (BitVec 8) := (List.range n).map (beByte word)

@[simp] theorem length_beBytes (word : BitVec (8 * n)) : (beBytes word).length = n := by simp [beBytes]

theorem getElem_beBytes (word : BitVec (8 * n)) (i : Nat) (h : i < (beBytes word).length) :
    (beBytes word)[i] = beByte word i := by
  simp [beBytes]

theorem getLsbD_beByte (word : BitVec (8 * n)) {i t : Nat} (ht : t < 8) :
    (beByte word i).getLsbD t = word.getLsbD (8 * (n - 1 - i) + t) := by
  rw [beByte, BitVec.getLsbD_extractLsb', decide_eq_true ht, Bool.true_and]

/-- The bytes from one index on. -/
theorem drop_beBytes (word : BitVec (8 * n)) {i : Nat} (h : i < n) :
    (beBytes word).drop i = beByte word i :: (beBytes word).drop (i + 1) := by
  have hlen : i < (beBytes word).length := by rwa [length_beBytes]
  rw [List.drop_eq_getElem_cons hlen, getElem_beBytes]

/-- A word has the bytes that its bits show. -/
theorem beBytes_eq {word : BitVec (8 * n)} {bytes : List (BitVec 8)} (hlen : bytes.length = n)
    (h : ∀ i (hi : i < bytes.length) t, t < 8 → word.getLsbD (8 * (n - 1 - i) + t) = (bytes.get ⟨i, hi⟩).getLsbD t) :
    beBytes word = bytes := by
  apply List.ext_getElem
  · rw [length_beBytes, hlen]
  · intro i hi hi'
    rw [getElem_beBytes]
    apply BitVec.eq_of_getLsbD_eq
    intro t ht
    rw [getLsbD_beByte word ht]
    exact h i hi' t ht

/-- Two words in one tell both. -/
theorem append_eq_append_iff {m k : Nat} {high high' : BitVec m} {low low' : BitVec k} :
    high ++ low = high' ++ low' ↔ high = high' ∧ low = low' := by
  constructor
  · intro h
    have hhigh := congrArg (BitVec.extractLsb' k m) h
    have hlow := congrArg (BitVec.extractLsb' 0 k) h
    rw [BitVec.extractLsb'_append_eq_left, BitVec.extractLsb'_append_eq_left] at hhigh
    rw [BitVec.extractLsb'_append_eq_right, BitVec.extractLsb'_append_eq_right] at hlow
    exact ⟨hhigh, hlow⟩
  · rintro ⟨rfl, rfl⟩
    rfl

end Glip.Foundation
