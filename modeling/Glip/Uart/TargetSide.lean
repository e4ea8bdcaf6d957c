import Glip.Uart.CommThread

/-! What a clock cycle of the target does to the credit it holds and to the bytes
that it has sent. -/
namespace Glip.Uart
open Foundation

section Ingress

theorem ingress_events (t : Control) (i : ControlIn) (hrst : i.rst = false) :
    (t.next i).ingress = (if i.ingressInValid then ingressBytes.next t.ingress i.ingressInData else t.ingress) ∧
      (t.ingressOut i).events =
        if i.ingressInValid then ingressBytes.emit t.ingress i.ingressInData else [] := by
  have h := ingress_sampled t.ingress [Control.ingressIn i] (by simp [Control.ingressIn, hrst])
  cases hv : i.ingressInValid
  · simpa [Control.ingressIn, IngressIn.byte, hv, ingressCycles, Control.next, Control.ingressOut] using h
  · simpa [Control.ingressIn, IngressIn.byte, hv, ingressCycles, Control.next, Control.ingressOut] using h

theorem granted_events (o : IngressOut) : granted o.events = if o.creditEn then o.creditVal else 0 := by
  cases h₁ : o.fsmError <;> cases h₂ : o.outValid <;> cases h₃ : o.creditEn <;> cases h₄ : o.logicRstEn <;>
    cases h₅ : o.comRstEn <;> simp [IngressOut.events, granted, h₁, h₂, h₃, h₄, h₅]

theorem mem_comReset_events {o : IngressOut} (h : o.comRstEn = true) : .comReset o.comRstVal ∈ o.events := by
  simp [IngressOut.events, h]

theorem mem_word_events {o : IngressOut} (h : o.outValid = true) : .word o.outData ∈ o.events := by
  simp [IngressOut.events, h]

end Ingress

section Egress

/-- How far the host is in a message when the egress state machine is in a state. -/
def Synced : Framing → EgressState → Prop
  | .start, .idle | .start, .passthrough | .start, .sendCredit1 => True
  | .marked, .passthroughRepeat | .marked, .sendCredit2 => True
  | .low _, .sendCredit3 => True
  | _, _ => False

def EgressState.halfSent : EgressState → Nat
  | .passthroughRepeat => 1
  | _ => 0

private theorem nxt_idle (i : EgressIn) (creditEn : Bool) :
    Synced .start (EgressState.idle.nxt i creditEn) ∧ (EgressState.idle.nxt i creditEn).halfSent = 0 := by
  simp only [EgressState.nxt]
  split
  · exact ⟨trivial, rfl⟩
  · split <;> exact ⟨trivial, rfl⟩

/-- A word is paid back when it is sent, or when the first byte of it is. -/
theorem egress_emits {f : Framing} {e : EgressState} {i : EgressIn} (creditEn : Bool) (hsync : Synced f e)
    (hvalid : e = .passthrough → i.inValid = true) (hdone : i.outDone = true → (e.out i).outEnable = true) :
    Synced (if i.outDone then hostDecoder.next f (e.out i).outData else f) (e.nxt i creditEn) ∧
      (if i.outDone then words (hostDecoder.emit f (e.out i).outData) else []).length +
        (e.nxt i creditEn).halfSent = e.halfSent + (e.transfer i).toNat := by
  have hhigh := creditHigh_ne_marker i.credit
  cases hd : i.outDone with
  | false =>
    cases e
    case idle =>
      obtain ⟨hs, hh⟩ := nxt_idle i creditEn
      cases f <;> simp_all [Synced, EgressState.out, EgressState.transfer, EgressState.halfSent]
    all_goals
      cases f <;> simp_all [Synced, EgressState.nxt, EgressState.out, EgressState.transfer, EgressState.halfSent]
  | true =>
    cases e <;> cases f <;>
      simp_all [Synced, EgressState.nxt, EgressState.out, EgressState.transfer, EgressState.halfSent,
        hostDecoder, words]
    by_cases hb : i.inData = marker <;> simp [hb, words]

theorem nxt_passthrough {e : EgressState} {i : EgressIn} {creditEn : Bool} (h : e.nxt i creditEn = .passthrough) :
    e.transfer i = false ∧ (e = .passthrough ∨ i.canSend = true ∧ i.inValid = true) := by
  cases e <;> simp only [EgressState.nxt] at h <;> grind [EgressState.transfer, EgressState.out]

theorem transfer_passthrough {e : EgressState} {i : EgressIn} (h : e.transfer i = true) :
    e = .passthrough ∧ i.outDone = true := by
  cases e <;> simp_all [EgressState.transfer, EgressState.out]

end Egress

theorem wordsOf_snoc (bs : List UInt8) (b : UInt8) :
    wordsOf (bs ++ [b]) = wordsOf bs ++ words (hostDecoder.emit (hostDecoder.after .start bs) b) := by
  rw [wordsOf, Transducer.emitted_append, words_append]
  simp [wordsOf]

theorem after_snoc (bs : List UInt8) (b : UInt8) :
    hostDecoder.after .start (bs ++ [b]) = hostDecoder.next (hostDecoder.after .start bs) b := by
  rw [Transducer.after_append]
  rfl

namespace Link
variable {s : Link} {c : Cycle}

def ahead (s : Link) : Ingress := ingressBytes.after s.target.ingress s.down

/-- The credit that the host has sent and the debtor has not got. -/
def inFlight (s : Link) : Nat := granted (ingressBytes.emitted s.target.ingress s.down)

def sentBy (s : Link) (c : Cycle) : List UInt8 :=
  if c.done then [(s.target.egressOut (s.controlIn c)).outData] else []

theorem clock_target (s : Link) (c : Cycle) : (s.clock c).target = s.target.next (s.controlIn c) := rfl

/-- The bytes on their way to the target mean the same before and after a cycle,
but for what the cycle has told the rest of the target. -/
theorem clock_down (hc : c.Allowed s) :
    ingressBytes.emitted s.target.ingress s.down =
        (s.target.ingressOut (s.controlIn c)).events ++
          ingressBytes.emitted (s.clock c).target.ingress (s.clock c).down ∧
      (s.clock c).ahead = s.ahead := by
  obtain ⟨hn, he⟩ := ingress_events s.target (s.controlIn c) rfl
  have hvalid : (s.controlIn c).ingressInValid = c.receive := rfl
  rw [ahead, clock_target, hn, he, hvalid, ahead]
  cases hr : c.receive with
  | false => simp [clock, hr]
  | true =>
    obtain ⟨b, down, hdown⟩ := List.exists_cons_of_ne_nil (hc.receive hr)
    have hdata : (s.controlIn c).ingressInData = b := by simp [controlIn, hdown]
    simp [clock, hr, hdown, hdata]

/-- The credit that the host counts is with the debtor of the target, in grants that
it has not got yet, or in words that the host has not stored yet. -/
structure Balanced (s : Link) (incoming : List UInt8) : Prop where
  sync : Synced (hostDecoder.after .start incoming) s.target.egress
  sum : s.ctx.credit = s.target.debtor + s.inFlight + ((wordsOf incoming).length + s.target.egress.halfSent)
  pass : s.target.egress = .passthrough → 0 < s.target.debtor ∧ s.fromLogic ≠ []

private theorem payback_owing (hc : c.Allowed s)
    (ht : s.target.egress.transfer (s.target.egressIn (s.controlIn c)) = true) : 0 < s.target.debtor := by
  obtain ⟨he, hd⟩ := transfer_passthrough ht
  have := hc.done hd
  simpa [Control.egressOut, he, EgressState.out, Control.egressIn, owing, Nat.pos_iff_ne_zero] using this

private theorem lend_fits {incoming : List UInt8} (h : s.Balanced incoming) (hc : c.Allowed s)
    (hcap : s.ctx.credit < 2 ^ 15) :
    s.target.debtor + (if (s.target.ingressOut (s.controlIn c)).creditEn then
      (s.target.ingressOut (s.controlIn c)).creditVal else 0) < 2 ^ 15 := by
  have hsum := h.sum
  rw [inFlight, (clock_down hc).1, granted_append, granted_events] at hsum
  omega

/-- The debtor neither overflows nor underflows. -/
theorem Balanced.debtor_error {incoming : List UInt8} (h : s.Balanced incoming) (hc : c.Allowed s)
    (hcap : s.ctx.credit < 2 ^ 15) :
    debtorError 15 s.target.debtor (s.target.debtorIn (s.controlIn c)) = false :=
  debtorError_eq (payback_owing hc) (lend_fits h hc hcap)

theorem comRst_eq (s : Link) (c : Cycle) : s.target.comRst (s.controlIn c) = s.target.comRstHost := by
  simp [Control.comRst, controlIn]

/-- The egress state machine outside of the communication reset. -/
theorem clock_egress (hcom : s.target.comRstHost = false) (c : Cycle) :
    (s.clock c).target.egress = s.target.egress.nxt (s.target.egressIn (s.controlIn c))
      (s.target.creditLogic (s.controlIn c)).creditEn := by
  rw [clock_target, Control.next, comRst_eq, hcom]
  rfl

theorem Balanced.clock_debtor {incoming : List UInt8} (h : s.Balanced incoming) (hc : c.Allowed s)
    (hcom : s.target.comRstHost = false) (hcap : s.ctx.credit < 2 ^ 15) :
    (s.clock c).target.debtor = s.target.debtor +
      (if (s.target.ingressOut (s.controlIn c)).creditEn then (s.target.ingressOut (s.controlIn c)).creditVal else 0) -
        if s.target.egress.transfer (s.target.egressIn (s.controlIn c)) then 1 else 0 := by
  have hrst : s.target.comRst (s.controlIn c) = false := (comRst_eq s c).trans hcom
  exact debtorNext_eq (i := s.target.debtorIn (s.controlIn c)) hrst (payback_owing hc) (lend_fits h hc hcap)

/-- What the host makes of the byte that the target sends. -/
theorem incoming_sent (s : Link) (c : Cycle) (incoming : List UInt8) {e : EgressIn}
    (he : e = s.target.egressIn (s.controlIn c)) :
    hostDecoder.after .start (incoming ++ s.sentBy c) =
        (if e.outDone then hostDecoder.next (hostDecoder.after .start incoming) (s.target.egress.out e).outData
          else hostDecoder.after .start incoming) ∧
      (wordsOf (incoming ++ s.sentBy c)).length = (wordsOf incoming).length +
        (if e.outDone then words (hostDecoder.emit (hostDecoder.after .start incoming)
          (s.target.egress.out e).outData) else []).length := by
  subst he
  have hdone : (s.target.egressIn (s.controlIn c)).outDone = c.done := rfl
  rw [hdone, sentBy]
  cases c.done with
  | false => simp
  | true =>
    rw [if_pos rfl, if_pos rfl, if_pos rfl, after_snoc, wordsOf_snoc, List.length_append]
    exact ⟨rfl, rfl⟩

theorem Balanced.clock {incoming : List UInt8} (h : s.Balanced incoming) (hc : c.Allowed s)
    (hcom : s.target.comRstHost = false) (hcap : s.ctx.credit < 2 ^ 15) :
    (s.clock c).Balanced (incoming ++ s.sentBy c) := by
  set i := s.controlIn c with hi
  set e := s.target.egressIn i with he
  have hvalid : s.target.egress = .passthrough → e.inValid = true := fun he => by
    simpa [e, Control.egressIn, hi, controlIn] using (h.pass he).2
  obtain ⟨hsync, hwords⟩ := egress_emits (s.target.creditLogic i).creditEn h.sync hvalid hc.done
  have hegress := clock_egress hcom c
  have hdebtor := h.clock_debtor hc hcom hcap
  rw [← hi, ← he] at hegress hdebtor
  obtain ⟨hafter, hlength⟩ := incoming_sent s c incoming he
  constructor
  case sync =>
    rw [hafter, hegress]
    exact hsync
  case sum =>
    have hsum := h.sum
    have hcredit : (s.clock c).ctx = s.ctx := rfl
    rw [inFlight, (clock_down hc).1, granted_append, granted_events, ← hi] at hsum
    rw [inFlight, hlength, hegress, hdebtor, hcredit]
    have howing := payback_owing hc
    cases ht : s.target.egress.transfer e with
    | false =>
      rw [ht] at hwords
      simp only [Bool.toNat_false, Bool.false_eq_true, if_false] at hwords ⊢
      omega
    | true =>
      have := howing ht
      rw [ht] at hwords
      simp only [Bool.toNat_true, if_true] at hwords ⊢
      omega
  case pass =>
    intro hp
    rw [hegress] at hp
    obtain ⟨ht, hor⟩ := nxt_passthrough hp
    have hlogic : (s.clock c).fromLogic = s.fromLogic := by
      have : (s.clock c).fromLogic = if s.target.egress.transfer e then s.fromLogic.tail else s.fromLogic := rfl
      rw [this, ht]
      rfl
    rw [ht] at hdebtor
    rcases hor with he | ⟨hsend, hin⟩
    · obtain ⟨hpos, hne⟩ := h.pass he
      exact ⟨by rw [hdebtor]; simp; omega, hlogic ▸ hne⟩
    · have hpos : 0 < s.target.debtor := by
        simpa [e, Control.egressIn, owing, Nat.pos_iff_ne_zero] using hsend
      have hne : s.fromLogic ≠ [] := by
        simpa [e, Control.egressIn, hi, controlIn] using hin
      exact ⟨by rw [hdebtor]; simp; omega, hlogic ▸ hne⟩

end Link
end Glip.Uart
