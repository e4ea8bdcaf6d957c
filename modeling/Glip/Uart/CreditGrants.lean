import Glip.Uart.TargetControl
import Glip.Uart.TargetMessages
import Mathlib.Data.List.Induction
import Mathlib.Data.List.Infix

/-! Every credit that the creditor of the target grants goes to the host in one
message, and no credit is made or lost. -/
namespace Glip.Uart
open Foundation

inductive CreditEvent where
  /-- a word has left the input FIFO -/
  | transferIn
  | grant (val : Nat)
  /-- a byte of a credit message has been sent -/
  | byte (b : UInt8)
  deriving DecidableEq

namespace Control
variable (c : Control) (i : ControlIn)

def sentCredit : List UInt8 :=
  match c.egress with
  | .sendCredit1 | .sendCredit2 | .sendCredit3 => if i.egressOutDone then [(c.egressOut i).outData] else []
  | _ => []

def creditEvents : List CreditEvent :=
  (if i.transferIn then [.transferIn] else []) ++
    (if c.getCreditAck i then [.grant (c.creditor.comb 15 fifoCreditWidth (c.creditorIn i)).nxtCredit] else []) ++
    (c.sentCredit i).map .byte

end Control

def creditCycles : Transducer Control ControlIn CreditEvent where
  next := Control.next
  emit := Control.creditEvents

def CreditEvent.granted : CreditEvent → Option Nat
  | .grant val => some val
  | _ => none

def CreditEvent.sent : CreditEvent → Option UInt8
  | .byte b => some b
  | _ => none

def transfers (es : List CreditEvent) : Nat := es.count .transferIn
def grants (es : List CreditEvent) : List Nat := es.filterMap CreditEvent.granted
def messageBytes (es : List CreditEvent) : List UInt8 := es.filterMap CreditEvent.sent

section Events
variable (a b : List CreditEvent)

theorem transfers_append : transfers (a ++ b) = transfers a + transfers b := List.count_append
theorem grants_append : grants (a ++ b) = grants a ++ grants b := List.filterMap_append
theorem messageBytes_append : messageBytes (a ++ b) = messageBytes a ++ messageBytes b := List.filterMap_append

end Events

def creditMessage (val : Nat) : List UInt8 := [marker, creditHigh val, creditLow val]

namespace Control

structure CreditReset (c : Control) : Prop where
  egress : c.egress = .idle
  creditor : c.creditor = ⟨inputFifoCredit, 0⟩
  transferCounter : c.transferCounter = 0
  sendCreditPnd : c.sendCreditPnd = false
  getCredit : c.getCredit = false

theorem creditReset_next {c : Control} {i : ControlIn} (h : c.comRst i = true) : (c.next i).CreditReset := by
  constructor <;> simp [Control.next, h, Creditor.next, creditorIn]

/-- The grant that the host has not got completely. -/
def pending (c : Control) : List Nat := if c.sendCreditPnd && !c.getCredit then [c.creditor.credit] else []

def sentPart (c : Control) : List UInt8 :=
  match c.egress with
  | .sendCredit2 => [marker]
  | .sendCredit3 => [marker, creditHigh c.creditor.credit]
  | _ => []

def Sending (c : Control) : Prop := c.egress = .sendCredit1 ∨ c.egress = .sendCredit2 ∨ c.egress = .sendCredit3

/-- The state of the credit generation after `sent` has been sent completely. -/
structure Ledger (c : Control) (sent : List Nat) (transfers : Nat) : Prop where
  sum : sent.sum + c.pending.sum + c.creditor.resources = inputFifoCredit + transfers
  fits : ∀ val ∈ sent ++ c.pending, val < 2 ^ fifoCreditWidth
  sending : c.Sending → c.sendCreditPnd = true ∧ c.getCredit = false
  pnd : c.getCredit = true → c.sendCreditPnd = true
  counter : c.transferCounter ≤ inputFifoCredit / 2
  room : c.getCredit = false → c.transferCounter ≠ 0 →
    c.creditor.resources + c.transferCounter ≤ inputFifoCredit / 2

theorem CreditReset.ledger {c : Control} (h : c.CreditReset) : c.Ledger [] 0 ∧ c.sentPart = [] ∧ c.pending = [] := by
  have hpending : c.pending = [] := by simp [pending, h.sendCreditPnd]
  refine ⟨⟨?_, ?_, ?_, ?_, ?_, ?_⟩, ?_, hpending⟩
  · simp [hpending, h.creditor]
  · simp [hpending]
  · simp [Sending, h.egress]
  · simp [h.getCredit]
  · simp [h.transferCounter]
  · simp [h.transferCounter]
  · simp [sentPart, h.egress]

section Step
variable {c : Control} {i : ControlIn}

theorem getCreditAck_eq (h : c.creditor.resources ≤ inputFifoCredit) :
    c.getCreditAck i = (c.getCredit && !i.transferIn) ∧
      (c.getCreditAck i = true →
        (c.creditor.comb 15 fifoCreditWidth (c.creditorIn i)).nxtCredit = c.creditor.resources) := by
  have hfit : c.creditor.resources < 2 ^ fifoCreditWidth := Nat.lt_of_le_of_lt h (by decide)
  rw [getCreditAck, Creditor.comb_eq hfit (by decide)]
  cases ht : i.transferIn <;> cases hg : c.getCredit <;> simp [creditorIn, ht, hg]

theorem creditor_next (hrst : c.comRst i = false) (h : c.creditor.resources ≤ inputFifoCredit) :
    (c.next i).creditor =
      if i.transferIn then ⟨c.creditor.resources + 1, c.creditor.credit⟩
      else if c.getCredit then ⟨0, c.creditor.resources⟩ else c.creditor :=
  Creditor.next_eq (Nat.lt_of_le_of_lt h (by decide)) (by decide) (i := c.creditorIn i) hrst

theorem sentPart_eq_nil (h : ¬c.Sending) : c.sentPart = [] := by
  cases he : c.egress <;> simp [Sending, sentPart, he] at h ⊢

theorem sentCredit_eq_nil (h : ¬c.Sending) : c.sentCredit i = [] := by
  cases he : c.egress <;> simp [Sending, sentCredit, he] at h ⊢

/-- No credit is asked for: the egress state machine does not begin a credit message. -/
private theorem egress_next_idle (hrst : c.comRst i = false) (hen : (c.creditLogic i).creditEn = false)
    (hegress : ¬c.Sending) : ¬(c.next i).Sending := by
  have hnext : (c.next i).egress = c.egress.nxt (c.egressIn i) false := by simp [Control.next, hrst, hen]
  rw [Sending, hnext]
  cases he : c.egress <;> simp [Sending, he, EgressState.nxt] at hegress ⊢ <;> split_ifs <;> simp

theorem transfers_events : transfers (c.creditEvents i) = i.transferIn.toNat := by
  have hsent : ((c.sentCredit i).map CreditEvent.byte).count .transferIn = 0 := List.count_eq_zero.mpr (by simp)
  rw [transfers, creditEvents, List.count_append, List.count_append, hsent]
  cases i.transferIn <;> cases c.getCreditAck i <;> simp

theorem grants_events (h : c.creditor.resources ≤ inputFifoCredit) :
    grants (c.creditEvents i) = if c.getCredit && !i.transferIn then [c.creditor.resources] else [] := by
  obtain ⟨hack, hval⟩ := getCreditAck_eq (i := i) h
  have hsent : ((c.sentCredit i).map CreditEvent.byte).filterMap CreditEvent.granted = [] := by
    simp [List.filterMap_map, Function.comp_def, CreditEvent.granted]
  rw [grants, creditEvents, List.filterMap_append, List.filterMap_append, hsent, List.append_nil, ← hack]
  cases ha : c.getCreditAck i with
  | false => cases i.transferIn <;> simp [CreditEvent.granted]
  | true => cases i.transferIn <;> simp [CreditEvent.granted, hval ha]

theorem messageBytes_events : messageBytes (c.creditEvents i) = c.sentCredit i := by
  have hsent : ((c.sentCredit i).map CreditEvent.byte).filterMap CreditEvent.sent = c.sentCredit i := by
    simp [List.filterMap_map, Function.comp_def, CreditEvent.sent]
  rw [messageBytes, creditEvents, List.filterMap_append, List.filterMap_append, hsent]
  cases i.transferIn <;> cases c.getCreditAck i <;> rfl

/-- A cycle in which no credit is to be sent. -/
private theorem Ledger.next_quiet {sent : List Nat} {n : Nat} (h : c.Ledger sent n) (hrst : c.comRst i = false)
    (hhost : c.creditor.resources ≤ inputFifoCredit) (hp : c.sendCreditPnd = false) :
    (c.next i).Ledger sent (n + i.transferIn.toNat) ∧ (c.next i).pending = [] ∧ (c.next i).sentPart = [] := by
  have hg : c.getCredit = false := Bool.eq_false_iff.mpr fun hg => by simp [h.pnd hg] at hp
  have hcreditor := creditor_next hrst hhost
  have hresources : (c.next i).creditor.resources = c.creditor.resources + i.transferIn.toNat := by
    rw [hcreditor, hg]
    cases i.transferIn <;> rfl
  have hen : (c.creditLogic i).creditEn = false := by
    simp only [creditLogic, hp, Bool.false_eq_true, if_false]
    split_ifs <;> rfl
  have hegress := egress_next_idle hrst hen (mt h.sending (by simp [hp]))
  have hasked : (c.next i).sendCreditPnd = (c.next i).getCredit := by
    simp only [Control.next, hrst, creditLogic, hp, hg, Bool.false_eq_true, if_false]
    split_ifs <;> rfl
  have hpending : (c.next i).pending = [] := by
    rw [pending, hasked]
    simp
  have hcounter : (c.next i).transferCounter ≤ inputFifoCredit / 2 ∧
      ((c.next i).getCredit = false → (c.next i).transferCounter ≠ 0 →
        (c.next i).transferCounter + i.transferIn.toNat = c.transferCounter ∧ c.transferCounter ≠ 0) := by
    have := h.counter
    simp only [Control.next, hrst, creditLogic, hp, hg, Bool.false_eq_true, if_false]
    split_ifs with h₀ ht
    · simp
    · simp [ht]
      omega
    · simp [ht, this, h₀]
  have hsum := h.sum
  rw [pending, hp, Bool.false_and, if_neg Bool.false_ne_true] at hsum
  refine ⟨⟨?_, ?_, fun hs => absurd hs hegress, fun hg' => hasked.trans hg', hcounter.1, fun hg' hne => ?_⟩,
    hpending, sentPart_eq_nil hegress⟩
  · rw [hpending, hresources]
    omega
  · intro val hval
    rw [hpending, List.append_nil] at hval
    exact h.fits val (List.mem_append_left _ hval)
  · obtain ⟨heq, hne'⟩ := hcounter.2 hg' hne
    have := h.room hg hne'
    omega

private theorem counter_next_pnd (hrst : c.comRst i = false) (hp : c.sendCreditPnd = true) :
    (c.next i).transferCounter = c.transferCounter - i.transferIn.toNat := by
  simp only [Control.next, hrst, creditLogic, hp, Bool.false_eq_true, if_true, if_false]
  split_ifs with h
  · rw [h.2, Bool.toNat_true]
  · cases ht : i.transferIn <;> simp [ht] at h ⊢
    omega

/-- A cycle in which the creditor is asked for credit, which it grants unless it is
paid back. -/
private theorem Ledger.next_asked {sent : List Nat} {n : Nat} (h : c.Ledger sent n) (hrst : c.comRst i = false)
    (hhost : c.creditor.resources ≤ inputFifoCredit) (hg : c.getCredit = true) :
    (c.next i).Ledger sent (n + i.transferIn.toNat) ∧ (c.next i).sentPart = [] ∧
      (c.next i).pending = if i.transferIn then [] else [c.creditor.resources] := by
  have hp := h.pnd hg
  have hcreditor := creditor_next hrst hhost
  have hack := (getCreditAck_eq (i := i) hhost).1
  have hquiet : ¬c.Sending := mt h.sending (by simp [hg])
  have hsum := h.sum
  have hcounter := h.counter
  have hnext := counter_next_pnd hrst hp
  rw [hg, Bool.true_and] at hack
  rw [pending, hg, Bool.not_true, Bool.and_false, if_neg Bool.false_ne_true] at hsum
  cases ht : i.transferIn with
  | true =>
    rw [ht, Bool.not_true] at hack
    have hen : (c.creditLogic i).creditEn = false := by simp [creditLogic, hp, hg, hack]
    have hegress := egress_next_idle hrst hen hquiet
    have hasked : (c.next i).getCredit = true ∧ (c.next i).sendCreditPnd = true := by
      simp [Control.next, hrst, creditLogic, hp, hg, hack]
    have hpending : (c.next i).pending = [] := by simp [pending, hasked]
    have hresources : (c.next i).creditor.resources = c.creditor.resources + 1 := by simp [hcreditor, ht]
    refine ⟨⟨?_, ?_, fun hs => absurd hs hegress, fun _ => hasked.2, ?_, fun hg' => ?_⟩,
      sentPart_eq_nil hegress, hpending⟩
    · rw [hpending, hresources, Bool.toNat_true]
      omega
    · intro val hval
      rw [hpending, List.append_nil] at hval
      exact h.fits val (List.mem_append_left _ hval)
    · omega
    · simp [hasked.1] at hg'
  | false =>
    rw [ht, Bool.not_false] at hack
    have hgranted : (c.next i).getCredit = false ∧ (c.next i).sendCreditPnd = true := by
      simp [Control.next, hrst, creditLogic, hp, hg, hack]
    have hcredit : (c.next i).creditor = ⟨0, c.creditor.resources⟩ := by simp [hcreditor, ht, hg]
    have hpending : (c.next i).pending = [c.creditor.resources] := by simp [pending, hgranted, hcredit]
    have hpart : (c.next i).sentPart = [] := by
      have hegress : (c.next i).egress = c.egress.nxt (c.egressIn i) (c.creditLogic i).creditEn := by
        simp [Control.next, hrst]
      rw [sentPart, hegress]
      cases he : c.egress <;> simp [Sending, he, EgressState.nxt] at hquiet ⊢ <;> split_ifs <;> rfl
    rw [ht, Bool.toNat_false, Nat.sub_zero] at hnext
    refine ⟨⟨?_, ?_, fun _ => ⟨hgranted.2, hgranted.1⟩, fun _ => hgranted.2, ?_, fun _ _ => ?_⟩, hpart, hpending⟩
    · rw [hpending, hcredit, List.sum_singleton, Bool.toNat_false]
      simp only [List.sum_nil] at hsum
      omega
    · intro val hval
      rw [hpending, List.mem_append, List.mem_singleton] at hval
      rcases hval with hval | rfl
      · exact h.fits val (List.mem_append_left _ hval)
      · exact Nat.lt_of_le_of_lt hhost (by decide)
    · omega
    · rw [hcredit]
      dsimp only
      omega

/-- A cycle in which a credit message is on its way. -/
private theorem Ledger.next_sending {sent : List Nat} {n : Nat} (h : c.Ledger sent n) (hrst : c.comRst i = false)
    (hhost : c.creditor.resources ≤ inputFifoCredit) (hp : c.sendCreditPnd = true) (hg : c.getCredit = false) :
    ∃ done, (c.next i).Ledger (sent ++ done) (n + i.transferIn.toNat) ∧ c.pending = done ++ (c.next i).pending ∧
      c.sentPart ++ c.sentCredit i = done.flatMap creditMessage ++ (c.next i).sentPart := by
  have hcreditor : (c.next i).creditor = ⟨c.creditor.resources + i.transferIn.toNat, c.creditor.credit⟩ := by
    rw [creditor_next hrst hhost, hg]
    cases i.transferIn <;> rfl
  have hcounter := counter_next_pnd hrst hp
  have hle := h.counter
  have hroom := h.room hg
  have hsum := h.sum
  have hpending : c.pending = [c.creditor.credit] := by simp [pending, hp, hg]
  have hg' : (c.next i).getCredit = false := by simp [Control.next, hrst, creditLogic, hp, hg]
  have hp' : (c.next i).sendCreditPnd = !(c.egressOut i).creditAck := by
    simp [Control.next, hrst, creditLogic, hp, hg]
  have hegress : (c.next i).egress = c.egress.nxt (c.egressIn i) true := by
    simp [Control.next, hrst, creditLogic, hp, hg]
  rw [hpending] at hsum
  by_cases hlast : c.egress = .sendCredit3 ∧ i.egressOutDone = true
  · have hack : (c.egressOut i).creditAck = true := by
      simp [egressOut, hlast.1, EgressState.out, egressIn, hlast.2]
    have hidle : (c.next i).egress = .idle := by simp [hegress, hlast.1, EgressState.nxt, egressIn, hlast.2]
    have hquiet : ¬(c.next i).Sending := by simp [Sending, hidle]
    have hpending' : (c.next i).pending = [] := by simp [pending, hp', hack]
    refine ⟨[c.creditor.credit], ⟨?_, ?_, fun hs => absurd hs hquiet, by simp [hg'], by omega, fun _ hne => ?_⟩, ?_, ?_⟩
    · rw [hpending', hcreditor, List.sum_append]
      simp only [List.sum_nil, List.sum_singleton] at hsum ⊢
      omega
    · rw [hpending', List.append_nil, ← hpending]
      exact h.fits
    · have := hroom (by omega)
      rw [hcreditor]
      dsimp only
      omega
    · rw [hpending, hpending', List.append_nil]
    · rw [sentPart_eq_nil hquiet]
      simp [sentPart, sentCredit, hlast, egressOut, EgressState.out, egressIn, creditMessage]
  · have hack : (c.egressOut i).creditAck = false := by
      cases he : c.egress <;> simp [egressOut, he, EgressState.out, egressIn] at hlast ⊢
      exact hlast
    have hpending' : (c.next i).pending = [c.creditor.credit] := by simp [pending, hp', hack, hg', hcreditor]
    refine ⟨[], ⟨?_, ?_, fun _ => ⟨by simp [hp', hack], hg'⟩, by simp [hg'], by omega, fun _ hne => ?_⟩, ?_, ?_⟩
    · rw [hpending', hcreditor, List.append_nil]
      dsimp only
      omega
    · rw [hpending', List.append_nil, ← hpending]
      exact h.fits
    · have := hroom (by omega)
      rw [hcreditor]
      dsimp only
      omega
    · rw [hpending, hpending', List.nil_append]
    · rw [sentPart, sentPart, sentCredit, hegress, hcreditor]
      cases he : c.egress <;> cases hd : i.egressOutDone <;>
        simp [he, hd, egressOut, EgressState.out, EgressState.nxt, egressIn] at hlast ⊢
      split_ifs <;> rfl

theorem Ledger.next {sent : List Nat} {n : Nat} (h : c.Ledger sent n)
    (hrst : c.comRst i = false) (hhost : c.creditor.resources ≤ inputFifoCredit) :
    ∃ done, (c.next i).Ledger (sent ++ done) (n + transfers (c.creditEvents i)) ∧
      c.pending ++ grants (c.creditEvents i) = done ++ (c.next i).pending ∧
      c.sentPart ++ messageBytes (c.creditEvents i) = done.flatMap creditMessage ++ (c.next i).sentPart := by
  rw [transfers_events, grants_events hhost, messageBytes_events]
  cases hp : c.sendCreditPnd with
  | false =>
    have hquiet : ¬c.Sending := mt h.sending (by simp [hp])
    have hg : c.getCredit = false := Bool.eq_false_iff.mpr fun hg => by simp [h.pnd hg] at hp
    obtain ⟨hnext, hpending, hpart⟩ := h.next_quiet hrst hhost hp
    refine ⟨[], by rwa [List.append_nil], ?_, ?_⟩
    · rw [hpending]
      simp [pending, hp, hg]
    · simp [sentPart_eq_nil hquiet, sentCredit_eq_nil hquiet, hpart]
  | true =>
    cases hg : c.getCredit with
    | true =>
      have hquiet : ¬c.Sending := mt h.sending (by simp [hg])
      obtain ⟨hnext, hpart, hpending⟩ := h.next_asked hrst hhost hg
      refine ⟨[], by rwa [List.append_nil], ?_, ?_⟩
      · rw [hpending]
        cases i.transferIn <;> simp [pending, hg]
      · simp [sentPart_eq_nil hquiet, sentCredit_eq_nil hquiet, hpart]
    | false =>
      obtain ⟨done, hnext, hpending, hpart⟩ := h.next_sending hrst hhost hp hg
      exact ⟨done, hnext, by simpa using hpending, hpart⟩

end Step

theorem Ledger.sentPart_prefix {c : Control} {sent : List Nat} {n : Nat} (h : c.Ledger sent n) :
    c.sentPart <+: c.pending.flatMap creditMessage := by
  by_cases hs : c.Sending
  · obtain ⟨hp, hg⟩ := h.sending hs
    have hpending : c.pending.flatMap creditMessage = creditMessage c.creditor.credit := by simp [pending, hp, hg]
    rw [hpending, creditMessage, sentPart]
    rcases hs with he | he | he <;> simp [he]
  · rw [sentPart_eq_nil hs]
    exact List.nil_prefix

/-- What the host decodes is what has been sent completely. -/
theorem Ledger.creditsOf_sent {c : Control} {sent : List Nat} {n : Nat} (h : c.Ledger sent n) :
    creditsOf (sent.flatMap creditMessage ++ c.sentPart) = sent.sum := by
  have hfits : ∀ val ∈ sent, val < 2 ^ 15 := fun val hval =>
    Nat.lt_trans (h.fits val (List.mem_append_left _ hval)) (by decide)
  have hwhole : Whole (sent.flatMap creditMessage) ∧ creditsOf (sent.flatMap creditMessage) = sent.sum := by
    clear h
    induction sent with
    | nil => exact ⟨rfl, rfl⟩
    | cons val sent ih =>
      obtain ⟨hw, hsum⟩ := ih fun v hv => hfits v (List.mem_cons_of_mem _ hv)
      have hval := whole_credit (creditHigh_ne_marker val) (creditLow val)
      rw [List.flatMap_cons, List.sum_cons, creditMessage, hval.creditsOf_append, hsum,
        creditsOf_credit (creditHigh_ne_marker val), debtTranche_credit (hfits val List.mem_cons_self)]
      exact ⟨hval.append_iff.mpr hw, rfl⟩
  have hpart : creditsOf c.sentPart = 0 := by
    have hne := creditHigh_ne_marker c.creditor.credit
    unfold sentPart
    cases c.egress <;> simp [creditsOf, hostDecoder, credits, hne]
  rw [hwhole.1.creditsOf_append, hwhole.2, hpart, Nat.add_zero]

def NoComRst : Control → List ControlIn → Prop
  | _, [] => True
  | c, i :: ins => c.comRst i = false ∧ NoComRst (c.next i) ins

instance : (c : Control) → (ins : List ControlIn) → Decidable (c.NoComRst ins)
  | _, [] => instDecidableTrue
  | c, i :: ins =>
    have : Decidable ((c.next i).NoComRst ins) := instDecidableNoComRst _ ins
    inferInstanceAs (Decidable (_ ∧ _))

theorem noComRst_append (c : Control) (a b : List ControlIn) :
    c.NoComRst (a ++ b) ↔ c.NoComRst a ∧ (creditCycles.after c a).NoComRst b := by
  induction a generalizing c with
  | nil => simp [NoComRst]
  | cons i a ih => rw [List.cons_append, NoComRst, NoComRst, ih, and_assoc]; rfl

/-- The host has not been paid back more words than it has got credit for. -/
def Solvent (es : List CreditEvent) : Prop := transfers es ≤ creditsOf (messageBytes es)

instance (es : List CreditEvent) : Decidable (Solvent es) := inferInstanceAs (Decidable (_ ≤ _))

theorem CreditReset.run {c₀ : Control} (h : c₀.CreditReset) (ins : List ControlIn) (hrst : c₀.NoComRst ins)
    (hhost : ∀ pre ∈ ins.inits, Solvent (creditCycles.emitted c₀ pre)) :
    ∃ sent, (creditCycles.after c₀ ins).Ledger sent (transfers (creditCycles.emitted c₀ ins)) ∧
      grants (creditCycles.emitted c₀ ins) = sent ++ (creditCycles.after c₀ ins).pending ∧
      messageBytes (creditCycles.emitted c₀ ins) =
        sent.flatMap creditMessage ++ (creditCycles.after c₀ ins).sentPart := by
  induction ins using List.reverseRecOn with
  | nil =>
    obtain ⟨hledger, hpart, hpending⟩ := h.ledger
    exact ⟨[], hledger, by simp [hpending, grants], by simp [hpart, messageBytes]⟩
  | append_singleton ins i ih =>
    obtain ⟨hrst, hi, -⟩ := (noComRst_append c₀ ins [i]).mp hrst
    obtain ⟨sent, hledger, hgrants, hbytes⟩ := ih hrst fun pre hpre => hhost pre <|
      (List.mem_inits _ _).mpr ((List.mem_inits _ _).mp hpre |>.trans (List.prefix_append _ _))
    have hsolvent := hhost ins ((List.mem_inits _ _).mpr (List.prefix_append _ _))
    rw [Solvent, hbytes, hledger.creditsOf_sent] at hsolvent
    have hresources : (creditCycles.after c₀ ins).creditor.resources ≤ inputFifoCredit := by
      have := hledger.sum
      omega
    obtain ⟨done, hnext, hpending, hpart⟩ := hledger.next hi hresources
    have hafter : creditCycles.after c₀ (ins ++ [i]) = (creditCycles.after c₀ ins).next i :=
      Transducer.after_append ..
    have hemitted : creditCycles.emitted c₀ (ins ++ [i]) =
        creditCycles.emitted c₀ ins ++ (creditCycles.after c₀ ins).creditEvents i := by
      rw [Transducer.emitted_append, Transducer.emitted_cons, Transducer.emitted_nil, List.append_nil]
      rfl
    rw [hafter, hemitted]
    refine ⟨sent ++ done, ?_, ?_, ?_⟩
    · rw [transfers_append]
      exact hnext
    · rw [grants_append, hgrants, List.append_assoc, hpending, List.append_assoc]
    · rw [messageBytes_append, hbytes, List.append_assoc, hpart, List.flatMap_append, List.append_assoc]

/-- From a communication reset on, whatever the user logic sends and the host reads:
the grants are sent in their order, each in one message; what the host has got, what is
still to be sent and what the creditor has left make up the credit of the input FIFO and
all that has been paid back; and a host that has spent all its credit and has been paid
back has a grant on its way or asked for. -/
theorem credit_machinery {c₀ : Control} (h : c₀.CreditReset) (ins : List ControlIn) (hrst : c₀.NoComRst ins)
    (hhost : ∀ pre ∈ ins.inits, Solvent (creditCycles.emitted c₀ pre)) :
    let c := creditCycles.after c₀ ins
    let es := creditCycles.emitted c₀ ins
    (∃ sent, grants es = sent ++ c.pending ∧ messageBytes es = sent.flatMap creditMessage ++ c.sentPart ∧
      creditsOf (messageBytes es) = sent.sum) ∧
    c.sentPart <+: c.pending.flatMap creditMessage ∧
    creditsOf (messageBytes es) + c.pending.sum + c.creditor.resources = inputFifoCredit + transfers es ∧
    (transfers es = creditsOf (messageBytes es) → c.sendCreditPnd = true ∨ c.transferCounter = 0) := by
  intro c es
  obtain ⟨sent, hledger, hgrants, hbytes⟩ : ∃ sent, c.Ledger sent (transfers es) ∧ grants es = sent ++ c.pending ∧
      messageBytes es = sent.flatMap creditMessage ++ c.sentPart := h.run ins hrst hhost
  have hgot : creditsOf (messageBytes es) = sent.sum := by rw [hbytes, hledger.creditsOf_sent]
  have hsum := hledger.sum
  refine ⟨⟨sent, hgrants, hbytes, hgot⟩, hledger.sentPart_prefix, hgot ▸ hsum, fun hspent => ?_⟩
  by_contra hnot
  rw [not_or, Bool.not_eq_true] at hnot
  obtain ⟨hp, hcounter⟩ := hnot
  have hg : c.getCredit = false := Bool.eq_false_iff.mpr fun hg => by simp [hledger.pnd hg] at hp
  have hroom := hledger.room hg hcounter
  have hpending : c.pending = [] := by simp [pending, hp]
  rw [hpending, List.sum_nil] at hsum
  have : 0 < inputFifoCredit / 2 := by decide
  omega

/-- The first credit, and a word of it that is paid back. -/
theorem credit_machinery_first :
    let c₀ : Control := ⟨⟨.passthrough, 0⟩, .idle, 0, ⟨inputFifoCredit, 0⟩, 0, false, false, false, false⟩
    let quiet : ControlIn := ⟨false, 0, false, false, 0, false, true, false⟩
    let ins := List.replicate 5 quiet ++ [{ quiet with transferIn := true }]
    let c := creditCycles.after c₀ ins
    let es := creditCycles.emitted c₀ ins
    messageBytes es = creditMessage 4090 ∧ transfers es = 1 ∧
      creditsOf (messageBytes es) + c.pending.sum + c.creditor.resources = inputFifoCredit + transfers es := by
  intro c₀ quiet ins c es
  have hreset : c₀.CreditReset := by constructor <;> rfl
  have hrst : c₀.NoComRst ins := by decide
  have hhost : ∀ pre ∈ ins.inits, Solvent (creditCycles.emitted c₀ pre) := by decide
  exact ⟨by decide, by decide, (credit_machinery hreset ins hrst hhost).2.2.1⟩

end Control
end Glip.Uart
