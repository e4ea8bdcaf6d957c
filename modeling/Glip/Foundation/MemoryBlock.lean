import Glip.Foundation.RingWindow

/-! Blocks of memory. An access that leaves its block has no result. -/
namespace Glip.Foundation

structure Block where
  len : Nat
  byte : Nat → UInt8

namespace Block

def load (b : Block) (off n : Nat) : Option (List UInt8) :=
  if off + n ≤ b.len then some (segment b.byte off n) else none

def store (b : Block) (off : Nat) (bs : List UInt8) : Option Block :=
  if off + bs.length ≤ b.len then
    some { b with byte := fun j => if off ≤ j then bs.getD (j - off) (b.byte j) else b.byte j }
  else none

def calloc (n : Nat) : Block := ⟨n, fun _ => 0⟩

/-- `realloc` keeps the bytes that fit; the others are whatever the memory held. -/
def realloc (b : Option Block) (n : Nat) (junk : Nat → UInt8) : Block :=
  ⟨n, fun j => if j < (b.map Block.len).getD 0 then (b.map fun b => b.byte j).getD 0 else junk j⟩

@[simp] theorem calloc_len (n : Nat) : (calloc n).len = n := rfl

@[simp] theorem realloc_len (b : Option Block) (n : Nat) (junk : Nat → UInt8) :
    (realloc b n junk).len = n := rfl

theorem load_eq {b : Block} {off n : Nat} (h : off + n ≤ b.len) :
    b.load off n = some (segment b.byte off n) := if_pos h

theorem load_some {b : Block} {off n : Nat} {bs : List UInt8} (h : b.load off n = some bs) :
    off + n ≤ b.len ∧ bs = segment b.byte off n := by
  unfold load at h
  split at h
  · exact ⟨‹_›, (Option.some_inj.mp h).symm⟩
  · cases h

theorem store_len {b b' : Block} {off : Nat} {bs : List UInt8} (h : b.store off bs = some b') :
    b'.len = b.len := by
  unfold store at h
  split at h
  · obtain rfl := Option.some_inj.mp h
    rfl
  · cases h

/-- A store that stays inside a block is a placement in the ring of the block's cells. -/
theorem store_eq_place {b : Block} {off : Nat} (bs : List UInt8) (h : off + bs.length ≤ b.len) :
    ∃ b', b.store off bs = some b' ∧ b'.len = b.len ∧
      ∀ j < b.len, b'.byte j = place b.byte b.len off bs j := by
  refine ⟨_, if_pos h, rfl, fun j hj => ?_⟩
  simp only [place]
  rcases Nat.eq_or_lt_of_le (show off ≤ b.len by omega) with rfl | ho
  · have hb : bs = [] := List.eq_nil_of_length_eq_zero (by omega)
    simp [hb]
  · rw [Nat.mod_eq_of_lt ho]
    split
    · rw [show j + b.len - off = j - off + b.len by omega, Nat.add_mod_right, Nat.mod_eq_of_lt (by omega)]
    · rw [Nat.mod_eq_of_lt (by omega), List.getD_eq_default _ _ (by omega)]

theorem load_take {b : Block} {off n m : Nat} {bs : List UInt8} (h : b.load off n = some bs) (hm : m ≤ n) :
    b.load off m = some (bs.take m) := by
  obtain ⟨hle, rfl⟩ := load_some h
  rw [load_eq (by omega), segment_take _ _ _ _ hm]

/-- A store right behind known bytes keeps them and makes more bytes known. -/
theorem store_append {b b' : Block} {as bs : List UInt8} (h : b.store as.length bs = some b')
    (ha : b.load 0 as.length = some as) :
    b'.load 0 (as.length + bs.length) = some (as ++ bs) := by
  obtain ⟨-, ha⟩ := load_some ha
  unfold store at h
  split at h
  · rename_i hle
    obtain rfl := Option.some_inj.mp h
    rw [load_eq (by dsimp only; omega), segment_add]
    refine congrArg some (congrArg₂ _ ?_ ?_)
    · refine Eq.trans (segment_congr fun i hi => ?_) ha.symm
      exact if_neg (by omega)
    · refine List.ext_getElem (by simp) fun i hi hi' => ?_
      rw [segment_getElem, Nat.zero_add]
      simp only [Nat.le_add_right, if_true, Nat.add_sub_cancel_left]
      exact List.getD_eq_getElem _ _ hi'
  · cases h

theorem load_nil (b : Block) : b.load 0 0 = some [] := load_eq (Nat.zero_le _)

/-- What a store put into a block is read back. -/
theorem store_load {b b' : Block} {n : Nat} {bs : List UInt8} (h : b.store 0 bs = some b')
    (hn : n ≤ bs.length) : b'.load 0 n = some (bs.take n) := by
  have hall := store_append (show b.store ([] : List UInt8).length bs = some b' from h) b.load_nil
  exact load_take (by simpa using hall) hn

end Block
end Glip.Foundation
