import Glip.Foundation.Transducer
import Mathlib.Algebra.Group.Nat.Defs
import Mathlib.Data.List.Induction

/-! Vectors that are written and read one bit at a time, the least significant first. -/
namespace Glip.Foundation
variable {w : Nat}

/-- `x[i] = b`; an index outside the vector writes nothing. -/
def setBit (x : BitVec w) (i : Nat) (b : Bool) : BitVec w := if b then x ||| 1#w <<< i else x &&& ~~~(1#w <<< i)

private theorem getLsbD_one_shiftLeft (i j : Nat) : (1#w <<< i).getLsbD j = decide (j = i ∧ j < w) := by
  rw [BitVec.getLsbD_shiftLeft, BitVec.getLsbD_one, Bool.eq_iff_iff]
  simp only [Bool.and_eq_true, decide_eq_true_eq, Bool.not_eq_true', decide_eq_false_iff_not]
  omega

theorem getLsbD_setBit (x : BitVec w) (i : Nat) (b : Bool) (j : Nat) :
    (setBit x i b).getLsbD j = if j = i ∧ j < w then b else x.getLsbD j := by
  by_cases hj : j < w
  · by_cases hi : j = i
    · subst hi
      cases b <;> simp [setBit, hj]
    · cases b <;> simp [setBit, getLsbD_one_shiftLeft, hi, hj, -BitVec.getLsbD_shiftLeft, -BitVec.getLsbD_eq_getElem]
  · have hx (y : BitVec w) : y.getLsbD j = false := BitVec.getLsbD_of_ge y j (Nat.le_of_not_lt hj)
    rw [hx, hx, if_neg fun h => hj h.2]

def bitAt (v : BitVec w) (k : Nat) : Bool := v.getLsbD k

/-- `x` after the bits of `v` below `k` have been written into it. -/
def loaded (x v : BitVec w) : Nat → BitVec w
  | 0 => x
  | k + 1 => setBit (loaded x v k) k (bitAt v k)

theorem getLsbD_loaded (x v : BitVec w) (k j : Nat) :
    (loaded x v k).getLsbD j = if j < k then v.getLsbD j else x.getLsbD j := by
  induction k with
  | zero => rfl
  | succ k ih =>
    rw [loaded, getLsbD_setBit, ih, bitAt]
    by_cases hj : j < w
    · by_cases hk : j = k
      · simp [hk, hk ▸ hj]
      · have : j < k + 1 ↔ j < k := by omega
        simp [hk, this]
    · have hx (y : BitVec w) : y.getLsbD j = false := BitVec.getLsbD_of_ge y j (Nat.le_of_not_lt hj)
      simp [hj, hx]

/-- All the bits of a vector replace what was there. -/
theorem loaded_all (x v : BitVec w) : loaded x v w = v := by
  apply BitVec.eq_of_getLsbD_eq
  intro i hi
  rw [getLsbD_loaded, if_pos hi]

def bitsOf (v : BitVec w) : List Bool := (List.range w).map (bitAt v)

@[simp] theorem length_bitsOf (v : BitVec w) : (bitsOf v).length = w := by simp [bitsOf]

theorem length_flatMap_bitsOf (vs : List (BitVec w)) : (vs.flatMap bitsOf).length = w * vs.length := by
  induction vs with
  | nil => rfl
  | cons v vs ih => rw [List.flatMap_cons, List.length_append, length_bitsOf, ih, List.length_cons, Nat.mul_succ, Nat.add_comm]

@[simp] theorem getElem_bitsOf (v : BitVec w) (k : Nat) (h : k < (bitsOf v).length) : (bitsOf v)[k] = bitAt v k := by
  simp [bitsOf]

theorem bitsOf_injective : Function.Injective (bitsOf : BitVec w → List Bool) := by
  intro a b h
  apply BitVec.eq_of_getLsbD_eq
  intro i hi
  have := congrArg (·[i]?) h
  simpa [bitsOf, bitAt, hi] using this

theorem bitsOf_append_inj {a b : BitVec w} {x y : List Bool} (h : bitsOf a ++ x = bitsOf b ++ y) : a = b ∧ x = y := by
  obtain ⟨hab, hxy⟩ := List.append_inj h ((length_bitsOf a).trans (length_bitsOf b).symm)
  exact ⟨bitsOf_injective hab, hxy⟩

theorem flatMap_bitsOf_injective (hw : 0 < w) : Function.Injective fun vs : List (BitVec w) => vs.flatMap bitsOf := by
  intro as bs h
  have hne (v : BitVec w) (vs : List (BitVec w)) : (v :: vs).flatMap bitsOf ≠ [] := by
    intro hnil
    have := congrArg List.length hnil
    rw [List.flatMap_cons, List.length_append, length_bitsOf, List.length_nil] at this
    omega
  induction as generalizing bs with
  | nil =>
    cases bs with
    | nil => rfl
    | cons b bs => exact absurd h.symm (hne b bs)
  | cons a as ih =>
    cases bs with
    | nil => exact absurd h (hne a as)
    | cons b bs =>
      simp only [List.flatMap_cons] at h
      obtain ⟨rfl, hrest⟩ := bitsOf_append_inj h
      rw [ih hrest]

def natBits (n x : Nat) : List Bool := (List.range n).map x.testBit

theorem bitsOf_eq (v : BitVec w) : bitsOf v = natBits w v.toNat := rfl

theorem natBits_add (m n x : Nat) : natBits (m + n) x = natBits m x ++ (List.range n).map fun j => x.testBit (m + j) := by
  rw [natBits, List.range_add, List.map_append, List.map_map]
  rfl

/-- The bits of a number that is put together from two. -/
theorem natBits_mul_add {m : Nat} (n a : Nat) {b : Nat} (hb : b < 2 ^ m) :
    natBits (m + n) (2 ^ m * a + b) = natBits m b ++ natBits n a := by
  rw [natBits_add]
  congr 1
  · apply List.map_congr_left
    intro j hj
    rw [Nat.testBit_two_pow_mul_add a hb, if_pos (List.mem_range.mp hj)]
  · apply List.map_congr_left
    intro j _
    rw [Nat.testBit_two_pow_mul_add a hb, if_neg (by omega), Nat.add_sub_cancel_left]

theorem bitsOf_ofNat (n : Nat) : bitsOf (BitVec.ofNat w n) = natBits w n := by
  apply List.map_congr_left
  intro j hj
  rw [bitAt, BitVec.getLsbD_ofNat, decide_eq_true (List.mem_range.mp hj), Bool.true_and]

def ofBits (w : Nat) (bs : List Bool) : BitVec w := (List.range w).foldl (fun v k => setBit v k (bs.getD k false)) 0

theorem getLsbD_ofBits (bs : List Bool) {i : Nat} (hi : i < w) : (ofBits w bs).getLsbD i = bs.getD i false := by
  have hfold (k : Nat) : ((List.range k).foldl (fun v k => setBit v k (bs.getD k false)) (0 : BitVec w)).getLsbD i =
      if i < k then bs.getD i false else false := by
    induction k with
    | zero => simp
    | succ k ih =>
      rw [List.range_succ, List.foldl_append, List.foldl_cons, List.foldl_nil, getLsbD_setBit, ih]
      by_cases hk : i = k
      · simp [hk, hk ▸ hi]
      · have : i < k + 1 ↔ i < k := by omega
        simp [hk, this]
  rw [ofBits, hfold, if_pos hi]

theorem ofBits_bitsOf_append (v : BitVec w) (bs : List Bool) : ofBits w (bitsOf v ++ bs) = v := by
  apply BitVec.eq_of_getLsbD_eq
  intro i hi
  have hlen : i < (bitsOf v).length := by rwa [length_bitsOf]
  rw [getLsbD_ofBits _ hi, List.getD_eq_getElem?_getD, List.getElem?_append_left hlen, List.getElem?_eq_getElem hlen,
    getElem_bitsOf]
  rfl

theorem bitsOf_ofBits_take {bs : List Bool} (h : w ≤ bs.length) : bitsOf (ofBits w bs) = bs.take w := by
  apply List.ext_getElem
  · rw [length_bitsOf, List.length_take, Nat.min_eq_left h]
  · intro i hi hi'
    have hw : i < w := by rwa [length_bitsOf] at hi
    rw [getElem_bitsOf, bitAt, getLsbD_ofBits _ hw, List.getD_eq_getElem?_getD, List.getElem_take,
      List.getElem?_eq_getElem (by omega)]
    rfl

theorem bitsOf_ofBits {bs : List Bool} (h : bs.length = w) : bitsOf (ofBits w bs) = bs := by
  rw [bitsOf_ofBits_take (Nat.le_of_eq h.symm), ← h, List.take_length]

theorem take_bitsOf_ofBits {bs : List Bool} (h : bs.length ≤ w) : (bitsOf (ofBits w bs)).take bs.length = bs := by
  apply List.ext_getElem
  · rw [List.length_take, length_bitsOf, Nat.min_eq_left h]
  · intro i hi hi'
    rw [List.getElem_take, getElem_bitsOf, bitAt, getLsbD_ofBits _ (by omega), List.getD_eq_getElem?_getD,
      List.getElem?_eq_getElem hi']
    rfl

theorem toNat_count {k : Nat} (h : k < w) : (BitVec.ofNat w k).toNat = k :=
  (BitVec.toNat_ofNat k w).trans (Nat.mod_eq_of_lt (Nat.lt_trans h Nat.lt_two_pow_self))

namespace Transducer
variable {σ ι ε : Type} (m : Transducer σ ι ε)

/-- A machine that takes the same kind of step for each of its inputs. -/
theorem steps (St : Nat → σ) (out : Nat → List ε) (ins : List ι)
    (h : ∀ k (hk : k < ins.length), m.next (St k) ins[k] = St (k + 1) ∧ m.emit (St k) ins[k] = out k) :
    m.after (St 0) ins = St ins.length ∧ m.emitted (St 0) ins = ((List.range ins.length).map out).flatten := by
  induction ins using List.reverseRecOn with
  | nil => exact ⟨rfl, rfl⟩
  | append_singleton ins i ih =>
    obtain ⟨ha, he⟩ := ih fun k hk => by
      have := h k (by rw [List.length_append]; omega)
      rwa [List.getElem_append_left hk] at this
    obtain ⟨hn, hem⟩ := h ins.length (by simp)
    rw [List.getElem_concat_length rfl] at hn hem
    rw [after_append, emitted_append, ha, he, List.length_append, List.length_singleton, List.range_succ,
      List.map_append, List.flatten_append]
    simp [hn, hem]

/-- The states in which it reads them. -/
theorem steps_along {P : σ → Prop} (St : Nat → σ) (ins : List ι) (h : ∀ k (hk : k < ins.length), m.next (St k) ins[k] = St (k + 1))
    (hP : ∀ k < ins.length, P (St k)) : m.Along P (St 0) ins := by
  induction ins generalizing St with
  | nil => exact m.along_nil P _
  | cons i ins ih =>
    have hnext : m.next (St 0) i = St 1 := h 0 (Nat.succ_pos _)
    rw [along_cons, hnext]
    exact ⟨hP 0 (Nat.succ_pos _), ih (fun k => St (k + 1)) (fun k hk => h (k + 1) (Nat.succ_lt_succ hk))
      fun k hk => hP (k + 1) (Nat.succ_lt_succ hk)⟩

/-- A machine that takes the same kind of step for the bits of a word, and another for
the last of them. -/
theorem word {P : σ → Prop} (St : Nat → σ) (out : Nat → List ε) {ins : List ι} {n : Nat} (hlen : ins.length = n + 1)
    (h : ∀ k (hk : k < n), m.next (St k) ins[k] = St (k + 1) ∧ m.emit (St k) ins[k] = out k)
    (hP : ∀ k ≤ n, P (St k)) :
    m.after (St 0) ins = m.next (St n) ins[n] ∧
      m.emitted (St 0) ins = ((List.range n).map out).flatten ++ m.emit (St n) ins[n] ∧ m.Along P (St 0) ins := by
  obtain rfl | ⟨init, last, hins⟩ := List.eq_nil_or_concat ins
  · simp at hlen
  · rw [List.concat_eq_append] at hins
    subst hins
    have hn : init.length = n := by simpa using hlen
    subst hn
    have hstep (k : Nat) (hk : k < init.length) : m.next (St k) init[k] = St (k + 1) ∧ m.emit (St k) init[k] = out k := by
      have := h k hk
      rwa [List.getElem_append_left hk] at this
    obtain ⟨ha, he⟩ := m.steps St out init hstep
    have halong : m.Along P (St 0) init :=
      m.steps_along St init (fun k hk => (hstep k hk).1) fun k hk => hP k (Nat.le_of_lt hk)
    rw [List.getElem_concat_length rfl, after_append, emitted_append, along_append, ha, he, along_cons]
    simp [halong, hP, along_nil]

/-- The same for a machine that emits one event for each bit. -/
theorem word_each {P : σ → Prop} (St : Nat → σ) (out : Nat → ε) {ins : List ι} {n : Nat} (hlen : ins.length = n + 1)
    (h : ∀ k (hk : k < n), m.next (St k) ins[k] = St (k + 1) ∧ m.emit (St k) ins[k] = [out k])
    (hlast : m.emit (St n) ins[n] = [out n]) (hP : ∀ k ≤ n, P (St k)) :
    m.after (St 0) ins = m.next (St n) ins[n] ∧ m.emitted (St 0) ins = (List.range (n + 1)).map out ∧
      m.Along P (St 0) ins := by
  obtain ⟨ha, he, hp⟩ := m.word St (fun k => [out k]) hlen h hP
  refine ⟨ha, ?_, hp⟩
  rw [he, hlast, ← List.flatMap_def, ← List.map_eq_flatMap, List.range_succ, List.map_append, List.map_singleton]

end Transducer
end Glip.Foundation
