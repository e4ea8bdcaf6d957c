import Glip.Uart.HostSide

/-! The begin of a session: the target comes out of the communication reset and
announces its credit before anything else, which is what `reset` waits for. -/
namespace Glip.Uart
open Foundation

section Target
variable {o : IngressOut}

@[simp] theorem comReset_mem_events {v : Bool} :
    .comReset v ∈ o.events ↔ o.comRstEn = true ∧ o.comRstVal = v := by
  simp [IngressOut.events, @eq_comm _ v]

@[simp] theorem word_mem_events {b : UInt8} : .word b ∈ o.events ↔ o.outValid = true ∧ o.outData = b := by
  simp [IngressOut.events, @eq_comm _ b]

theorem comReset_not_credit {r : Ingress} {i : IngressIn} (h : (r.out i).comRstEn = true) :
    (r.out i).creditEn = false := by
  simp only [Ingress.out, Ingress.comb] at h ⊢
  split
  · split
    · split <;> rfl
    · split
      · rfl
      · split <;> rfl
    · simp_all [Ingress.defaults]
  · rfl

variable {t : Control} {i : ControlIn}

theorem next_comRst (h : t.comRst i = true) :
    (t.next i).egress = .idle ∧ (t.next i).debtor = 0 ∧ (t.next i).creditor = ⟨inputFifoCredit, 0⟩ ∧
      (t.next i).transferCounter = 0 ∧ (t.next i).sendCreditPnd = false ∧ (t.next i).getCredit = false := by
  simp [Control.next, h, debtorNext, Control.debtorIn, Creditor.next, Control.creditorIn]

theorem next_comRstHost (h : i.rst = false) :
    (t.next i).comRstHost = if (t.ingressOut i).comRstEn then (t.ingressOut i).comRstVal else t.comRstHost := by
  simp [Control.next, h]

end Target

namespace Link

/-- How far the target is with its first credit message, whose bytes are the first
that it sends. -/
inductive Announcing (t : Control) (inc : List UInt8) : Prop where
  | held : t.comRstHost = true → t.egress = .idle → t.debtor = 0 → t.sendCreditPnd = false →
      t.transferCounter = 0 → inc = [] → Announcing t inc
  | released : t.comRstHost = false → t.egress = .idle → t.debtor = 0 → t.sendCreditPnd = false →
      t.transferCounter = 0 → inc = [] → Announcing t inc
  | asking : t.comRstHost = false → t.egress = .idle → t.sendCreditPnd = true → t.getCredit = true →
      inc = [] → Announcing t inc
  | first : t.comRstHost = false → t.egress = .sendCredit1 → inc = [] → Announcing t inc
  | second : t.comRstHost = false → t.egress = .sendCredit2 → inc = [marker] → Announcing t inc
  | begun (high : UInt8) (more : List UInt8) : t.comRstHost = false → high ≠ marker →
      inc = marker :: high :: more → Announcing t inc

variable {s : Link} {c : Cycle} {inc : List UInt8}

private theorem sentBy_idle (hc : c.Allowed s) (he : s.target.egress = .idle) : s.sentBy c = [] := by
  cases hd : c.done with
  | false => simp [sentBy, hd]
  | true =>
    have := hc.done hd
    simp [Control.egressOut, he, EgressState.out] at this

private theorem sentBy_of_done (hd : c.done = true) :
    s.sentBy c = [(s.target.egress.out (s.target.egressIn (s.controlIn c))).outData] := by
  simp [sentBy, hd, Control.egressOut]

/-- Either nothing is sent yet, or the marker comes first. -/
private theorem Announcing.sentBy (h : Announcing s.target inc) (hc : c.Allowed s) :
    inc ≠ [] ∨ s.sentBy c = [] ∨ ∃ more, s.sentBy c = marker :: more := by
  cases h with
  | held _ he | released _ he | asking _ he => exact .inr (.inl (sentBy_idle hc he))
  | first _ he =>
    right
    cases hd : c.done with
    | false => exact .inl (by simp [Link.sentBy, hd])
    | true => exact .inr ⟨[], by rw [sentBy_of_done hd, he]; rfl⟩
  | second _ _ hinc => exact .inl (by simp [hinc])
  | begun _ _ _ _ hinc => exact .inl (by simp [hinc])

theorem Announcing.clock (h : Announcing s.target inc) (hc : c.Allowed s) (hfed : s.fed = false)
    (hrst : (s.target.ingressOut (s.controlIn c)).comRstEn = true →
      s.target.comRstHost = true ∧ (s.target.ingressOut (s.controlIn c)).comRstVal = false) :
    Announcing (s.clock c).target (inc ++ s.sentBy c) := by
  have hhost := next_comRstHost (t := s.target) (i := s.controlIn c) rfl
  have hstill (hcom : s.target.comRstHost = false) : (s.clock c).target.comRstHost = false := by
    rw [clock_target, hhost, if_neg (fun hen => by simp [hcom] at hrst; simp [hrst] at hen), hcom]
  cases h with
  | held hcom he hdebtor hpnd hcount hinc =>
    obtain ⟨hegress, hdebtor', -, hcount', hpnd', -⟩ := next_comRst ((comRst_eq s c).trans hcom)
    have hinc' : inc ++ s.sentBy c = [] := by rw [hinc, sentBy_idle hc he, List.append_nil]
    by_cases hen : (s.target.ingressOut (s.controlIn c)).comRstEn = true
    · exact .released (by rw [clock_target, hhost, if_pos hen, (hrst hen).2]) hegress hdebtor' hpnd' hcount' hinc'
    · exact .held (by rw [clock_target, hhost, if_neg hen, hcom]) hegress hdebtor' hpnd' hcount' hinc'
  | released hcom he hdebtor hpnd hcount hinc =>
    have hlogic : s.target.creditLogic (s.controlIn c) = ⟨inputFifoCredit / 2, true, true, false⟩ := by
      simp [Control.creditLogic, hpnd, hcount]
    have hreg : (s.clock c).target.sendCreditPnd = true ∧ (s.clock c).target.getCredit = true := by
      simp [clock_target, Control.next, comRst_eq, hcom, hlogic]
    refine .asking (hstill hcom) ?_ hreg.1 hreg.2 (by rw [hinc, sentBy_idle hc he, List.append_nil])
    rw [clock_egress hcom c, he, hlogic]
    simp [EgressState.nxt, Control.egressIn, owing, hdebtor]
  | asking hcom he hpnd hget hinc =>
    have hin : c.transferIn = false := by
      cases ht : c.transferIn with
      | false => rfl
      | true => rw [hc.transferIn ht] at hfed; cases hfed
    have hgrant : s.target.getCreditAck (s.controlIn c) = true := by
      simp [Control.getCreditAck, Control.creditorIn, controlIn, hin, hget, Creditor.comb]
      split <;> rfl
    have hen : (s.target.creditLogic (s.controlIn c)).creditEn = true := by
      simp [Control.creditLogic, hpnd, hget, hgrant]
    exact .first (hstill hcom) (by rw [clock_egress hcom c, he, hen]; rfl)
      (by rw [hinc, sentBy_idle hc he, List.append_nil])
  | first hcom he hinc =>
    have hnext := clock_egress hcom c
    rw [he] at hnext
    cases hd : c.done with
    | false =>
      exact .first (hstill hcom) (by rw [hnext]; simp [EgressState.nxt, Control.egressIn, controlIn, hd])
        (by simp [hinc, Link.sentBy, hd])
    | true =>
      refine .second (hstill hcom) (by rw [hnext]; simp [EgressState.nxt, Control.egressIn, controlIn, hd]) ?_
      rw [hinc, sentBy_of_done hd, he]
      rfl
  | second hcom he hinc =>
    have hnext := clock_egress hcom c
    rw [he] at hnext
    cases hd : c.done with
    | false =>
      exact .second (hstill hcom) (by rw [hnext]; simp [EgressState.nxt, Control.egressIn, controlIn, hd])
        (by simp [hinc, Link.sentBy, hd])
    | true =>
      refine .begun (creditHigh s.target.creditor.credit) [] (hstill hcom) (creditHigh_ne_marker _) ?_
      rw [hinc, sentBy_of_done hd, he]
      rfl
  | begun high more hcom hhigh hinc =>
    exact .begun high (more ++ s.sentBy c) (hstill hcom) hhigh (by rw [hinc]; rfl)

/-- The first two bytes are the begin of a credit message. -/
theorem Announcing.two {t : Control} {b b' : UInt8} (h : Announcing t (b :: b' :: inc)) :
    b = marker ∧ b' ≠ marker ∧ t.comRstHost = false := by
  cases h with
  | held _ _ _ _ _ hinc | released _ _ _ _ _ hinc | asking _ _ _ _ hinc | first _ _ hinc | second _ _ hinc =>
    simp at hinc
  | begun high more hcom hhigh hinc =>
    obtain ⟨rfl, rfl, -⟩ : b = marker ∧ b' = high ∧ inc = more := by simpa using hinc
    exact ⟨rfl, hhigh, hcom⟩

theorem clock_up (s : Link) (c : Cycle) : (s.clock c).up = s.up ++ s.sentBy c := by
  cases hd : c.done <;> simp [Link.clock, Link.sentBy, hd]

structure Opening (s : Link) : Prop where
  fed : s.fed = false
  announcing : Announcing s.target s.incoming
  events : ∃ vals : List Nat, ingressBytes.emitted s.target.ingress (s.down ++ s.pc.toSend) =
    (if s.target.comRstHost then [.comReset false] else []) ++ vals.map .credit

/-- What is told in a cycle out of such bytes, and what is left. -/
private theorem opening_events {es rest : List IngressEvent} {r : Bool} {vals : List Nat}
    (h : es ++ rest = (if r then [.comReset false] else []) ++ vals.map .credit) :
    (es = [] ∨ r = true ∧ .comReset false ∈ es ∨ r = false) ∧
      (∀ v, .comReset v ∈ es → r = true ∧ v = false) ∧ (∀ b, .word b ∉ es) ∧
        ∃ vals' : List Nat, rest = (if r = true ∧ es = [] then [.comReset false] else []) ++ vals'.map .credit := by
  cases es with
  | nil => exact ⟨.inl rfl, by simp, by simp, vals, by simpa using h⟩
  | cons e es =>
    cases r with
    | false =>
      obtain ⟨before, after, -, hbefore, hafter⟩ := List.append_eq_map_iff.mp
        (show (e :: es) ++ rest = vals.map .credit by simpa using h)
      exact ⟨.inr (.inr rfl), by simp [← hbefore], by simp [← hbefore], after, by simp [hafter]⟩
    | true =>
      obtain ⟨rfl, htail⟩ : e = .comReset false ∧ es ++ rest = vals.map .credit := by simpa using h
      obtain ⟨before, after, -, rfl, hafter⟩ := List.append_eq_map_iff.mp htail
      exact ⟨.inr (.inl ⟨rfl, .head _⟩), by simp, by simp, after, by simp [hafter]⟩

/-- Under the communication reset the target has no credit and sends nothing. -/
private theorem Balanced.clock_reset (h : s.Balanced inc) (hc : c.Allowed s) (hcom : s.target.comRstHost = true)
    (he : s.target.egress = .idle) (hdebtor : s.target.debtor = 0)
    (hnone : granted (s.target.ingressOut (s.controlIn c)).events = 0) :
    (s.clock c).Balanced (inc ++ s.sentBy c) := by
  obtain ⟨he', hdebtor', -⟩ := next_comRst ((comRst_eq s c).trans hcom)
  rw [← clock_target] at he' hdebtor'
  rw [sentBy_idle hc he, List.append_nil]
  constructor
  case sync =>
    rw [he', ← he]
    exact h.sync
  case sum =>
    have hsum := h.sum
    have hcredit : (s.clock c).ctx = s.ctx := rfl
    rw [inFlight, (clock_down hc).1, granted_append, hnone, he, hdebtor] at hsum
    rw [inFlight, he', hdebtor', hcredit, hsum, Nat.zero_add (granted _)]
    rw [Nat.zero_add (granted _)]
  case pass =>
    intro hp
    rw [he'] at hp
    cases hp

theorem incoming_clock (h : s.pc.opening = true → Announcing s.target s.incoming) (hc : c.Allowed s) :
    (s.clock c).incoming = s.incoming ++ s.sentBy c := by
  have hpc : (s.clock c).pc = s.pc := rfl
  rw [incoming, hpc, clock_up, ← List.append_assoc]
  cases hop : s.pc.opening with
  | false => simp [incoming, hop]
  | true =>
    have hann := h hop
    have hinc : s.incoming = untrashed (s.pc.holds ++ s.up) := by simp [incoming, hop]
    rw [hinc] at hann ⊢
    exact untrashed_append _ (hann.sentBy hc)

theorem Opening.clock (h : s.Opening) (hb : s.Balanced s.incoming) (hc : c.Allowed s)
    (hcap : s.ctx.credit < 2 ^ 15) :
    (s.clock c).Opening ∧ (s.clock c).Balanced (s.clock c).incoming := by
  obtain ⟨vals, hvals⟩ := h.events
  rw [Transducer.emitted_append, (clock_down hc).1, List.append_assoc] at hvals
  obtain ⟨hcases, hreset, hword, vals', hrest⟩ := opening_events hvals
  have hinc := incoming_clock (fun _ => h.announcing) hc
  have hen : (s.target.ingressOut (s.controlIn c)).comRstEn = true →
      s.target.comRstHost = true ∧ (s.target.ingressOut (s.controlIn c)).comRstVal = false :=
    fun hen => hreset _ (comReset_mem_events.mpr ⟨hen, rfl⟩)
  have hhost : (s.clock c).target.comRstHost = true ↔
      s.target.comRstHost = true ∧ (s.target.ingressOut (s.controlIn c)).events = [] := by
    rw [clock_target, next_comRstHost (i := s.controlIn c) rfl]
    cases he : (s.target.ingressOut (s.controlIn c)).comRstEn with
    | true =>
      obtain ⟨-, hval⟩ := hen he
      have hne : (s.target.ingressOut (s.controlIn c)).events ≠ [] :=
        List.ne_nil_of_mem (comReset_mem_events.mpr ⟨he, rfl⟩)
      simp [hval, hne]
    | false =>
      have hno : .comReset false ∉ (s.target.ingressOut (s.controlIn c)).events :=
        fun hm => by simp [he] at hm
      rcases hcases with hnil | ⟨-, hm⟩ | hcom
      · simp [hnil]
      · exact absurd hm hno
      · simp [hcom]
  refine ⟨⟨?_, ?_, vals', ?_⟩, ?_⟩
  · have hvalid : (s.target.ingressOut (s.controlIn c)).outValid = false :=
      Bool.eq_false_iff.mpr fun hv => hword _ (word_mem_events.mpr ⟨hv, rfl⟩)
    simp [Link.clock, h.fed, hvalid]
  · rw [hinc]
    exact h.announcing.clock hc h.fed hen
  · have hahead : ingressBytes.after (s.clock c).target.ingress (s.clock c).down = s.ahead := (clock_down hc).2
    have hpc : (s.clock c).pc = s.pc := rfl
    rw [Transducer.emitted_append, hahead, hpc]
    simp only [hhost]
    exact hrest
  · rw [hinc]
    cases hcom : s.target.comRstHost with
    | false => exact hb.clock hc hcom hcap
    | true =>
      obtain ⟨he, hdebtor⟩ : s.target.egress = .idle ∧ s.target.debtor = 0 := by
        cases h.announcing <;> simp_all
      refine hb.clock_reset hc hcom he hdebtor ?_
      rcases hcases with hnil | ⟨-, hm⟩ | hno
      · rw [hnil]
        rfl
      · have hen' : (s.target.ingressOut (s.controlIn c)).creditEn = false :=
          comReset_not_credit (comReset_mem_events.mp hm).1
        simp [granted_events, hen']
      · rw [hno] at hcom
        cases hcom

end Link
end Glip.Uart
