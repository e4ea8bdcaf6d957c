import Glip.Foundation.WireVector

/-! The counters of the credit-based flow control: debtor.v, which counts what may
still be sent, and creditor.v, which counts what may still be granted. -/
namespace Glip.Uart
open Foundation

section Debtor

structure DebtorIn where
  rst : Bool
  payback : Bool
  lend : Bool
  tranche : Nat

variable (width : Nat)

/-- `nxt_credit`, which is one bit wider than the register of `WIDTH` bits. -/
def nxtDebt (credit : Nat) (i : DebtorIn) : Nat :=
  if i.lend && !i.payback then (credit + i.tranche) % 2 ^ (width + 1)
  else if i.payback && !i.lend then (credit + 2 ^ (width + 1) - 1) % 2 ^ (width + 1)
  else if i.lend && i.payback then (credit + i.tranche + 2 ^ (width + 1) - 1) % 2 ^ (width + 1)
  else credit

def debtorError (credit : Nat) (i : DebtorIn) : Bool :=
  if i.lend && !i.payback then bit width (nxtDebt width credit i)
  else if i.payback && !i.lend then credit == 0
  else false

def debtorNext (credit : Nat) (i : DebtorIn) : Nat :=
  if i.rst then 0 else nxtDebt width credit i % 2 ^ width

def owing (credit : Nat) : Bool := credit != 0

variable {width} {credit : Nat} {i : DebtorIn}

/-- What the counter holds after a clock edge that neither overflows nor underflows. -/
theorem debtorNext_eq (hrst : i.rst = false) (hpay : i.payback = true → 0 < credit)
    (hfit : credit + (if i.lend then i.tranche else 0) < 2 ^ width) :
    debtorNext width credit i =
      credit + (if i.lend then i.tranche else 0) - (if i.payback then 1 else 0) := by
  have hw : 2 ^ (width + 1) = 2 ^ width * 2 := Nat.pow_succ 2 width
  have hsub (n : Nat) (h : 0 < n) : n + 2 ^ (width + 1) - 1 = n - 1 + 2 ^ (width + 1) := by omega
  have hfits (n : Nat) (h : n < 2 ^ width) : n % 2 ^ (width + 1) = n := Nat.mod_eq_of_lt (by omega)
  obtain ⟨rst, payback, lend, tranche⟩ := i
  dsimp only at *
  subst hrst
  cases lend <;> cases payback <;> simp [debtorNext, nxtDebt] at hpay hfit ⊢
  · exact Nat.mod_eq_of_lt (by omega)
  · rw [hsub credit hpay, Nat.add_mod_right, hfits _ (by omega), Nat.mod_eq_of_lt (by omega)]
  · rw [hfits _ (by omega), Nat.mod_eq_of_lt (by omega)]
  · rw [hsub _ (by omega), Nat.add_mod_right, hfits _ (by omega), Nat.mod_eq_of_lt (by omega)]

theorem debtorError_eq (hpay : i.payback = true → 0 < credit)
    (hfit : credit + (if i.lend then i.tranche else 0) < 2 ^ width) :
    debtorError width credit i = false := by
  have hw : 2 ^ (width + 1) = 2 ^ width * 2 := Nat.pow_succ 2 width
  obtain ⟨rst, payback, lend, tranche⟩ := i
  dsimp only at *
  cases lend <;> cases payback <;> simp [debtorError, nxtDebt] at hpay hfit ⊢
  · omega
  · rw [Nat.mod_eq_of_lt (by omega), bit_eq, Nat.div_eq_of_lt hfit]
    rfl

end Debtor

section Creditor

structure Creditor where
  resources : Nat
  credit : Nat
  deriving DecidableEq

structure CreditorIn where
  rst : Bool
  payback : Bool
  borrow : Bool

structure CreditorLogic where
  nxtResources : Nat
  nxtCredit : Nat
  grant : Bool

variable (width creditWidth initialValue : Nat)

namespace Creditor

def comb (c : Creditor) (i : CreditorIn) : CreditorLogic :=
  if i.payback then ⟨(c.resources + 1) % 2 ^ (width + 1), c.credit, false⟩
  else if i.borrow then
    if creditWidth < width ∧ slice (width - 1) creditWidth c.resources ≠ 0 then
      let nxtCredit := 2 ^ creditWidth - 1
      ⟨c.resources - nxtCredit, nxtCredit, true⟩
    else ⟨0, c.resources % 2 ^ creditWidth, true⟩
  else ⟨c.resources, c.credit, false⟩

def error (c : Creditor) (i : CreditorIn) : Bool :=
  bit width (c.comb width creditWidth i).nxtResources || initialValue < c.resources

def next (c : Creditor) (i : CreditorIn) : Creditor :=
  if i.rst then ⟨initialValue, 0⟩
  else
    let l := c.comb width creditWidth i
    ⟨l.nxtResources % 2 ^ width, l.nxtCredit⟩

variable {width creditWidth initialValue}

/-- A creditor whose resources fit into one credit grants them all, unless it is paid
back in the same cycle. -/
theorem comb_eq {c : Creditor} (h : c.resources < 2 ^ creditWidth) (hw : creditWidth ≤ width) (i : CreditorIn) :
    c.comb width creditWidth i =
      if i.payback then ⟨c.resources + 1, c.credit, false⟩
      else if i.borrow then ⟨0, c.resources, true⟩
      else ⟨c.resources, c.credit, false⟩ := by
  have hpow : 2 ^ creditWidth ≤ 2 ^ width := Nat.pow_le_pow_right Nat.two_pos hw
  have hdouble : 2 ^ (width + 1) = 2 ^ width * 2 := Nat.pow_succ 2 width
  have hslice : slice (width - 1) creditWidth c.resources = 0 := by simp [slice, Nat.div_eq_of_lt h]
  have hone : ¬(creditWidth < width ∧ slice (width - 1) creditWidth c.resources ≠ 0) := fun hs => hs.2 hslice
  have hpaid : c.resources + 1 < 2 ^ (width + 1) := by omega
  rw [comb, if_neg hone, Nat.mod_eq_of_lt h, Nat.mod_eq_of_lt hpaid]

theorem next_eq {c : Creditor} (h : c.resources < 2 ^ creditWidth) (hw : creditWidth < width) {i : CreditorIn}
    (hrst : i.rst = false) :
    c.next width creditWidth initialValue i =
      if i.payback then ⟨c.resources + 1, c.credit⟩ else if i.borrow then ⟨0, c.resources⟩ else c := by
  have hpow : 2 ^ creditWidth < 2 ^ width := Nat.pow_lt_pow_right Nat.one_lt_two hw
  have hpaid : (c.resources + 1) % 2 ^ width = c.resources + 1 := Nat.mod_eq_of_lt (by omega)
  have hkept : c.resources % 2 ^ width = c.resources := Nat.mod_eq_of_lt (by omega)
  unfold Creditor.next
  rw [hrst, comb_eq h (Nat.le_of_lt hw)]
  cases i.payback <;> cases i.borrow <;> simp [hpaid, hkept]

end Creditor
end Creditor
end Glip.Uart
