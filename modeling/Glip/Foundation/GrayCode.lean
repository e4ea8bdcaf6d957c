import Mathlib.Data.Int.ModEq
import Mathlib.Tactic.Common

/-! The reflected Gray code on bit vectors, and counters that are compared through it:
a register that takes every bit from one of two successive codes holds one of them. -/
namespace Glip.Foundation
variable {w : Nat}

def gray (x : BitVec w) : BitVec w := x ^^^ x >>> 1

def Between (a b v : BitVec w) : Prop := ∀ i, v.getLsbD i = a.getLsbD i ∨ v.getLsbD i = b.getLsbD i

theorem Between.left (a b : BitVec w) : Between a b a := fun _ => .inl rfl

theorem Between.right (a b : BitVec w) : Between a b b := fun _ => .inr rfl

theorem Between.self {a v : BitVec w} (h : Between a a v) : v = a :=
  BitVec.eq_of_getLsbD_eq fun i _ => (h i).elim id id

theorem between_iff {a b v : BitVec w} : Between a b v ↔ (a ^^^ v) &&& (b ^^^ v) = 0#w := by
  constructor
  · intro h
    apply BitVec.eq_of_getLsbD_eq
    intro i _
    rcases h i with hv | hv <;> simp [hv]
  · intro h i
    have hi := congrArg (fun x => x.getLsbD i) h
    simp only [BitVec.getLsbD_and, BitVec.getLsbD_xor, BitVec.getLsbD_zero, Bool.and_eq_false_iff] at hi
    exact hi.imp (fun h => (bne_eq_false_iff_eq.mp h).symm) (fun h => (bne_eq_false_iff_eq.mp h).symm)

instance (a b v : BitVec w) : Decidable (Between a b v) := decidable_of_iff _ between_iff.symm

theorem getLsbD_gray (x : BitVec w) (i : Nat) :
    (gray x).getLsbD i = (x.getLsbD i ^^ x.getLsbD (i + 1)) := by
  rw [gray, BitVec.getLsbD_xor, BitVec.getLsbD_ushiftRight, Nat.add_comm]

theorem gray_injective {x y : BitVec w} (h : gray x = gray y) : x = y := by
  -- from the highest bit down, each bit is fixed by the one above it
  have bits (k : Nat) : ∀ i, w ≤ i + k → x.getLsbD i = y.getLsbD i := by
    induction k with
    | zero =>
      intro i hi
      rw [BitVec.getLsbD_of_ge x i hi, BitVec.getLsbD_of_ge y i hi]
    | succ k ih =>
      intro i hi
      have hbit := congrArg (·.getLsbD i) h
      simp only [getLsbD_gray] at hbit
      rw [ih (i + 1) (by omega)] at hbit
      exact Bool.xor_left_inj.mp hbit
  exact BitVec.eq_of_getLsbD_eq fun i _ => bits w i (by omega)

theorem gray_inj {x y : BitVec w} : gray x = gray y ↔ x = y := ⟨gray_injective, congrArg gray⟩

/-- The carry of an increment reaches the bit `i`. -/
private def Carries (x : BitVec w) (i : Nat) : Prop := i < w ∧ ∀ j < i, x.getLsbD j = true

private theorem getLsbD_add_one (x : BitVec w) (i : Nat) :
    (x + 1#w).getLsbD i ≠ x.getLsbD i ↔ Carries x i := by
  by_cases hi : i < w
  · rw [BitVec.getLsbD_add hi]
    cases i with
    | zero => simp [Carries, hi]
    | succ i =>
      rw [BitVec.carry_succ_one i x (by omega)]
      have hbits : Carries x (i + 1) ↔ ∀ j ≤ i, x.getLsbD j = true := by
        rw [Carries]
        exact (and_iff_right hi).trans (forall_congr' fun j => imp_congr_left Nat.lt_succ_iff)
      rw [hbits]
      by_cases hall : ∀ j ≤ i, x.getLsbD j = true
      · simp [iff_true_intro hall]
      · simp [iff_false_intro hall]
  · rw [BitVec.getLsbD_of_ge _ _ (by omega), BitVec.getLsbD_of_ge _ _ (by omega)]
    simp [Carries, hi]

private theorem gray_add_one (x : BitVec w) (i : Nat) (h : (gray (x + 1#w)).getLsbD i ≠ (gray x).getLsbD i) :
    Carries x i ∧ ¬Carries x (i + 1) := by
  rw [getLsbD_gray, getLsbD_gray] at h
  have h₀ := getLsbD_add_one x i
  have h₁ := getLsbD_add_one x (i + 1)
  have hdown : Carries x (i + 1) → Carries x i := fun hc => ⟨by have := hc.1; omega, fun j hj => hc.2 j (by omega)⟩
  by_cases hc : Carries x (i + 1)
  · -- both bits change, and the exclusive or of them does not
    have hi := Bool.eq_not_of_ne (h₀.mpr (hdown hc))
    have hi₁ := Bool.eq_not_of_ne (h₁.mpr hc)
    rw [hi, hi₁, Bool.not_xor_not] at h
    exact absurd rfl h
  · refine ⟨h₀.mp fun heq => ?_, hc⟩
    have := not_not.mp (mt h₁.mp hc)
    rw [heq, this] at h
    exact h rfl

/-- Between successive codes there is nothing but these two. -/
theorem between_gray_succ {x v : BitVec w} (h : Between (gray x) (gray (x + 1#w)) v) :
    v = gray x ∨ v = gray (x + 1#w) := by
  by_cases hsame : ∀ i, v.getLsbD i = (gray x).getLsbD i
  · exact .inl (BitVec.eq_of_getLsbD_eq fun i _ => hsame i)
  · obtain ⟨p, hp⟩ := not_forall.mp hsame
    have hvp : v.getLsbD p = (gray (x + 1#w)).getLsbD p := (h p).resolve_left hp
    obtain ⟨hcp, hnp⟩ := gray_add_one x p (fun heq => hp (hvp.trans heq))
    refine .inr (BitVec.eq_of_getLsbD_eq fun i _ => ?_)
    rcases h i with hi | hi
    · by_cases hne : (gray (x + 1#w)).getLsbD i = (gray x).getLsbD i
      · rw [hi, hne]
      · -- the codes differ in one place only, which is the end of the carry
        obtain ⟨hci, hni⟩ := gray_add_one x i hne
        have hle : i ≤ p := Nat.le_of_not_lt fun hlt =>
          hnp ⟨by have := hci.1; omega, fun j hj => hci.2 j (by omega)⟩
        have hge : p ≤ i := Nat.le_of_not_lt fun hlt =>
          hni ⟨by have := hcp.1; omega, fun j hj => hcp.2 j (by omega)⟩
        rw [Nat.le_antisymm hle hge, hvp]
    · exact hi

/-- Counters that are less than a turn apart are told apart by their low bits. -/
theorem ofNat_inj_near {a b : Nat} (hab : a ≤ b) (hnear : b < a + 2 ^ w) :
    BitVec.ofNat w a = BitVec.ofNat w b ↔ a = b := by
  constructor
  · intro h
    have hmod : a % 2 ^ w = b % 2 ^ w := by simpa using congrArg BitVec.toNat h
    obtain ⟨d, rfl⟩ := Nat.exists_eq_add_of_le hab
    have hd : d % 2 ^ w = 0 := by
      have := (Nat.ModEq.add_left_cancel' a (show a + d ≡ a + 0 [MOD 2 ^ w] from hmod.symm))
      simpa [Nat.ModEq] using this
    rw [Nat.mod_eq_of_lt (by omega)] at hd
    omega
  · intro h
    rw [h]

theorem ofNat_add_one (a : Nat) : BitVec.ofNat w (a + 1) = BitVec.ofNat w a + 1#w :=
  BitVec.ofNat_add a 1

/-- What is between the codes of a counter before and after it may have counted. -/
theorem between_gray_count {a b : Nat} {v : BitVec w} (hb : b = a ∨ b = a + 1)
    (h : Between (gray (BitVec.ofNat w a)) (gray (BitVec.ofNat w b)) v) :
    ∃ k, a ≤ k ∧ k ≤ b ∧ v = gray (BitVec.ofNat w k) := by
  rcases hb with rfl | rfl
  · exact ⟨b, Nat.le_refl b, Nat.le_refl b, h.self⟩
  · rw [ofNat_add_one] at h
    rcases between_gray_succ h with hv | hv
    · exact ⟨a, Nat.le_refl a, Nat.le_succ a, hv⟩
    · exact ⟨a + 1, Nat.le_succ a, Nat.le_refl _, by rw [ofNat_add_one a]; exact hv⟩

end Glip.Foundation
