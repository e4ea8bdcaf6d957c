import Glip.Tcp.GlipTcp

/-! The loops that put an item together and take it apart, in terms of the bytes it holds. -/
namespace Glip.Tcp
open Foundation
variable {n : Nat} (overshift : BitVec 32 → Nat → BitVec 32)

def filled (n : Nat) (held queue : List Byte) : List Byte := held ++ queue.take (n - held.length)

theorem filled_full {held : List Byte} (h : held.length = n) (queue : List Byte) : filled n held queue = held := by
  rw [filled, h, Nat.sub_self, List.take_zero, List.append_nil]

theorem filled_cons {held : List Byte} (h : held.length < n) (data : Byte) (queue : List Byte) :
    filled n held (data :: queue) = filled n (held ++ [data]) queue := by
  have hsub : n - held.length = n - (held ++ [data]).length + 1 := by
    rw [List.length_append, List.length_singleton]
    omega
  rw [filled, filled, hsub, List.take_succ_cons, List.append_assoc, List.singleton_append]

theorem length_filled_le {held : List Byte} (h : held.length ≤ n) (queue : List Byte) :
    (filled n held queue).length ≤ n := by
  rw [filled, List.length_append, List.length_take]
  omega

/-- Nothing is lost, and bytes stay in the queue only behind a whole item. -/
theorem filled_append (held queue : List Byte) :
    filled n held queue ++ queue.drop (n - held.length) = held ++ queue := by
  rw [filled, List.append_assoc, List.take_append_drop]

theorem filled_length_or (held queue : List Byte) (h : held.length ≤ n) :
    (filled n held queue).length = n ∨ queue.drop (n - held.length) = [] := by
  rw [filled, List.length_append, List.length_take]
  by_cases hlen : n - held.length ≤ queue.length
  · left
    omega
  · exact .inr (List.drop_eq_nil_of_le (Nat.le_of_not_le hlen))

theorem TempStorage.add_mPartial {item : TempStorage} {held : List Byte} (h : item.mPartial = held.length) (data : Byte) :
    (item.add overshift n data).mPartial = (held ++ [data]).length := by
  rw [TempStorage.add, h, List.length_append, List.length_singleton]

/-- What a byte more preserves, the loop preserves. -/
theorem popItem_fills {P : TempStorage → List Byte → Prop}
    (hadd : ∀ item held data, P item held → item.mPartial = held.length → held.length < n →
      P (item.add overshift n data) (held ++ [data]))
    (queue : List Byte) {item : TempStorage} {held : List Byte} (hP : P item held)
    (h : item.mPartial = held.length) (hle : held.length ≤ n) :
    P (popItem overshift n item queue).1 (filled n held queue) ∧
      (popItem overshift n item queue).1.mPartial = (filled n held queue).length ∧
      (popItem overshift n item queue).2 = queue.drop (n - held.length) := by
  induction queue generalizing item held with
  | nil =>
    rw [popItem, filled, List.take_nil, List.append_nil]
    exact ⟨hP, h, List.drop_nil.symm⟩
  | cons data queue ih =>
    rw [popItem]
    by_cases hlt : held.length < n
    · have hsucc : (held ++ [data]).length = held.length + 1 := by rw [List.length_append, List.length_singleton]
      have hsub : n - held.length = n - (held ++ [data]).length + 1 := by omega
      have hle : (held ++ [data]).length ≤ n := hsucc ▸ hlt
      obtain ⟨hP, hp, hq⟩ := ih (hadd item held data hP h hlt) (item.add_mPartial overshift h data) hle
      rw [if_pos (h ▸ hlt), filled_cons hlt, hsub, List.drop_succ_cons]
      exact ⟨hP, hp, hq⟩
    · have heq : held.length = n := Nat.le_antisymm hle (Nat.le_of_not_lt hlt)
      rw [if_neg (h ▸ hlt), filled_full heq, heq, Nat.sub_self]
      exact ⟨hP, h.trans heq, rfl⟩

/-- The low `n` bytes of an item are the bytes it holds, the first one on top. -/
def Holds (n : Nat) (item : TempStorage) (held : List Byte) : Prop :=
  ∀ i < n, ∀ t < 8, item.value.getLsbD (8 * (n - 1 - i) + t) = (held[i]?.getD 0).getLsbD t

theorem holds_reset : Holds n .reset [] := by
  intro i _ t _
  simp [TempStorage.reset]

/-- A shifted byte below the sign. -/
theorem getLsbD_shlInt (data : Byte) {k p : Nat} (hk : k < 32) (hp : p < 32) :
    ((shlInt overshift data k).signExtend 64).getLsbD p = (decide (k ≤ p) && data.getLsbD (p - k)) := by
  have hlt : p - k < 32 := Nat.lt_of_le_of_lt (Nat.sub_le p k) hp
  have hp64 : p < 64 := Nat.lt_trans hp (by decide)
  rw [shlInt, if_pos hk, BitVec.getLsbD_signExtend, if_pos hp, BitVec.getLsbD_shiftLeft, BitVec.getLsbD_setWidth]
  have hle : (!decide (p < k)) = decide (k ≤ p) := by rw [← decide_not, decide_eq_decide, Nat.not_lt]
  rw [decide_eq_true hp64, decide_eq_true hp, decide_eq_true hlt, Bool.true_and, Bool.true_and, Bool.true_and, hle]

/-- A byte is added to the bytes held, where an `int` has room for all. -/
theorem Holds.add {item : TempStorage} {held : List Byte} (h : Holds n item held) (hn : n ≤ 4)
    (hp : item.mPartial = held.length) (hlen : held.length < n) (data : Byte) :
    Holds n (item.add overshift n data) (held ++ [data]) := by
  intro i hi t ht
  have hk : (n - held.length - 1) * 8 < 32 := by omega
  have hbit : 8 * (n - 1 - i) + t < 32 := by omega
  rw [TempStorage.add, hp, BitVec.getLsbD_or, h i hi t ht, getLsbD_shlInt overshift data hk hbit]
  rcases Nat.lt_trichotomy i held.length with hlt | heq | hgt
  · -- the bytes above are not touched
    have hhigh : data.getLsbD (8 * (n - 1 - i) + t - (n - held.length - 1) * 8) = false :=
      BitVec.getLsbD_of_ge _ _ (by omega)
    rw [hhigh, Bool.and_false, Bool.or_false, List.getElem?_append_left hlt]
  · have hle : (n - held.length - 1) * 8 ≤ 8 * (n - 1 - i) + t := by omega
    have hsub : 8 * (n - 1 - i) + t - (n - held.length - 1) * 8 = t := by omega
    subst heq
    rw [decide_eq_true hle, hsub, List.getElem?_eq_none (Nat.le_refl _), List.getElem?_concat_length]
    simp
  · have hnot : ¬ (n - held.length - 1) * 8 ≤ 8 * (n - 1 - i) + t := by omega
    have hlen : (held ++ [data]).length ≤ i := by
      rw [List.length_append]
      exact hgt
    rw [decide_eq_false hnot, Bool.false_and, Bool.or_false, List.getElem?_eq_none (Nat.le_of_lt hgt),
      List.getElem?_eq_none hlen]

/-- The byte that the loop of the outgoing item takes from the value. -/
theorem pushed_byte (value : BitVec 64) {k : Nat} (hk : k < n) (hn : n ≤ 8) :
    ((value >>> (k * 8)) &&& 0xff).setWidth 8 = beByte (value.setWidth (8 * n)) (n - (k + 1)) := by
  have hidx : n - 1 - (n - (k + 1)) = k := by omega
  apply BitVec.eq_of_getLsbD_eq
  intro t ht
  have hmask : (0xff : BitVec 64).getLsbD t = true := by
    have hall (t : Fin 8) : (0xff : BitVec 64).getLsbD t = true := by
      revert t
      decide
    exact hall ⟨t, ht⟩
  have hlt : 8 * k + t < 8 * n := by omega
  rw [getLsbD_beByte _ ht, hidx, BitVec.getLsbD_setWidth, BitVec.getLsbD_setWidth, BitVec.getLsbD_and, hmask,
    BitVec.getLsbD_ushiftRight, decide_eq_true ht, decide_eq_true hlt, Nat.mul_comm, Bool.and_true]

/-- What the loop pushes: the bytes that the item still has, as far as there is room. -/
theorem pushItem_eq (capacity : Nat) {k : Nat} (hk : k ≤ n) (hn : n ≤ 8) (item : TempStorage) (queue : List Byte) :
    pushItem capacity k item queue =
      ({ item with mPartial := item.mPartial + min k (capacity - queue.length) },
        queue ++ ((beBytes (item.value.setWidth (8 * n))).drop (n - k)).take (min k (capacity - queue.length))) := by
  induction k generalizing item queue with
  | zero => rw [pushItem, Nat.zero_min, List.take_zero, List.append_nil, Nat.add_zero]
  | succ k ih =>
    rw [pushItem]
    by_cases hroom : queue.length < capacity
    · have hsub : n - (k + 1) + 1 = n - k := by omega
      have hmin (byte : Byte) : min (k + 1) (capacity - queue.length) =
          min k (capacity - (queue ++ [byte]).length) + 1 := by
        rw [List.length_append, List.length_singleton]
        omega
      rw [if_pos hroom, ih (Nat.le_of_succ_le hk), pushed_byte item.value hk hn, hmin,
        drop_beBytes _ (Nat.sub_lt_of_pos_le k.succ_pos hk), hsub, List.take_succ_cons, List.append_assoc,
        List.singleton_append, Nat.add_assoc, Nat.add_comm 1]
    · have hmin : min (k + 1) (capacity - queue.length) = 0 := by omega
      rw [if_neg hroom, hmin, List.take_zero, List.append_nil, Nat.add_zero]

end Glip.Tcp
