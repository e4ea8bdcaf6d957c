import Glip.Uart.SessionStart

/-! The credit from the target to the host over all runs: every unit is with the
debtor, in a grant on its way or in a word on its way, and has room in the input
buffer. -/
namespace Glip.Uart
open Foundation

def Caller.Ok : Caller → Prop
  | wait p => p.Ok
  | _ => True

def Pc.Fits (ctx : BackendCtx) : Pc → Prop
  | .release _ | .clear => ctx.credit < maxTranche
  | .debt got => ∀ d0 d1 d2 d3, got = [d0, d1, d2, d3] → d0 ≠ marker
  | .read avail => avail = 0 → ctx.credit = 0
  | .full got => ctx.credit = 0 ∧ got.length ≤ 1
  | .parse p => p.Ok
  | .credit ret => ret.Ok ∧ ctx.credit < maxTranche
  | .grant ret add _ => ret.Ok ∧ ctx.credit < maxTranche ∧ add ≤ maxTranche ∧
      ctx.credit + add ≤ cbufFreeLevel ctx.inputBuffer
  | .stopped why => why = .terminated ∨ why = .write
  | _ => True

theorem Pc.Fits.mono {pc : Pc} {ctx ctx' : BackendCtx} (h : pc.Fits ctx) (hcredit : ctx'.credit = ctx.credit)
    (hfree : cbufFreeLevel ctx.inputBuffer ≤ cbufFreeLevel ctx'.inputBuffer) : pc.Fits ctx' := by
  cases pc <;> simp only [Pc.Fits, hcredit] at h ⊢ <;> try exact h
  exact ⟨h.1, h.2.1, h.2.2.1, Nat.le_trans h.2.2.2 hfree⟩

namespace Link

/-- From the end of `reset` on, no communication reset is on its way. -/
structure Running (s : Link) : Prop where
  comRst : s.target.comRstHost = false
  events : ∀ v, .comReset v ∉ ingressBytes.emitted s.target.ingress s.down

structure Inv (s : Link) : Prop where
  backed : s.ctx.Backed
  capped : s.ctx.credit < 2 ^ 15
  fits : s.pc.Fits s.ctx
  sends : s.pc.Sends s.ahead
  balanced : s.Balanced s.incoming
  opening : s.pc.opening = true → s.Opening
  running : s.pc.opening = false → s.Running

structure Kept (s s' : Link) : Prop where
  target : s'.target = s.target
  down : s'.down = s.down
  fromLogic : s'.fromLogic = s.fromLogic
  fed : s'.fed = s.fed
  credit : s'.ctx.credit = s.ctx.credit
  input : s'.ctx.inputBuffer = s.ctx.inputBuffer

variable {s s' : Link} {inc : List UInt8}

theorem Inv.start (h : s.Start) : s.Inv := by
  have hahead : s.ahead = s.target.ingress := by simp [ahead, h.down]
  have hinc : s.incoming = [] := by
    rcases h.up with hup | ⟨trash, htrash, hup⟩
    · simp [incoming, h.pc, Pc.opening, Pc.holds, hup, untrashed]
    · simp [incoming, h.pc, Pc.opening, Pc.holds, hup, untrashed, htrash]
  have hevents : ingressBytes.emitted s.target.ingress (resetComBytes 0) = [.comReset false] :=
    (decode_message (.comReset false) s.target.ingress h.target.ingress).2
  constructor
  case backed => exact ⟨by simp [h.ctx], by simp [h.ctx]⟩
  case capped => simp [h.ctx]
  case fits => simp [h.pc, h.ctx, Pc.Fits, maxTranche]
  case sends =>
    rw [h.pc, hahead]
    exact Mid.start h.target.ingress [.comReset false]
  case balanced =>
    constructor
    · rw [hinc, h.target.egress]
      trivial
    · rw [hinc, h.target.egress, h.target.debtor, inFlight, h.down, h.ctx]
      rfl
    · intro hp
      rw [h.target.egress] at hp
      cases hp
  case opening =>
    intro
    constructor
    · exact h.fed
    · exact .held h.target.comRst h.target.egress h.target.debtor h.target.sendCreditPnd
        h.target.transferCounter hinc
    · exact ⟨[], by rw [h.down, h.pc, h.target.comRst]; exact hevents⟩
  case running =>
    intro hop
    rw [h.pc] at hop
    cases hop

theorem Inv.clock {c : Cycle} (h : s.Inv) (hc : c.Allowed s) : (s.clock c).Inv := by
  have hpc : (s.clock c).pc = s.pc := rfl
  have hctx : (s.clock c).ctx = s.ctx := rfl
  have hahead := (clock_down hc).2
  have hinc := incoming_clock (fun hop => (h.opening hop).announcing) hc
  have hrest : (s.pc.opening = true → (s.clock c).Opening) ∧ (s.pc.opening = false → (s.clock c).Running) ∧
      (s.clock c).Balanced (s.clock c).incoming := by
    cases hop : s.pc.opening with
    | true =>
      obtain ⟨ho, hb⟩ := (h.opening hop).clock h.balanced hc h.capped
      exact ⟨fun _ => ho, fun hno => (by cases hno), hb⟩
    | false =>
      obtain ⟨hcom, hevents⟩ := h.running hop
      rw [(clock_down hc).1] at hevents
      refine ⟨fun hno => (by cases hno), fun _ => ⟨?_, fun v hv => hevents v (List.mem_append_right _ hv)⟩, ?_⟩
      · have hen : (s.target.ingressOut (s.controlIn c)).comRstEn = false := Bool.eq_false_iff.mpr fun hen =>
          hevents _ (List.mem_append_left _ (comReset_mem_events.mpr ⟨hen, rfl⟩))
        rw [clock_target, next_comRstHost (i := s.controlIn c) rfl, hen, hcom]
        rfl
      · rw [hinc]
        exact h.balanced.clock hc hcom h.capped
  exact ⟨h.backed, h.capped, h.fits, by rw [hpc, hahead]; exact h.sends, hrest.2.2, hrest.1, hrest.2.1⟩

/-- The user reads, or the host changes its context without using its credit. -/
theorem Inv.ctx (h : s.Inv) {ctx : BackendCtx} (hbacked : ctx.Backed) (hcredit : ctx.credit = s.ctx.credit)
    (hfree : cbufFreeLevel s.ctx.inputBuffer ≤ cbufFreeLevel ctx.inputBuffer) : { s with ctx := ctx }.Inv := by
  have hb := h.balanced
  refine ⟨hbacked, ?_, h.fits.mono hcredit hfree, h.sends, ⟨hb.sync, ?_, hb.pass⟩, fun hop => ?_, fun hop => ?_⟩
  · rw [hcredit]
    exact h.capped
  · rw [hcredit]
    exact hb.sum
  · exact ⟨(h.opening hop).fed, (h.opening hop).announcing, (h.opening hop).events⟩
  · exact ⟨(h.running hop).comRst, (h.running hop).events⟩

theorem Balanced.kept (h : s.Balanced inc) (hk : s.Kept s') : s'.Balanced inc := by
  constructor
  · rw [hk.target]
    exact h.sync
  · rw [hk.credit, hk.target, inFlight, hk.target, hk.down]
    exact h.sum
  · rw [hk.target, hk.fromLogic]
    exact h.pass

/-- The host goes on without writing a byte or using its credit; what it is going to
write gives credit at most. -/
theorem Inv.promise (h : s.Inv) (hk : s.Kept s') (hheld : s'.pc.holds ++ s'.up = s.pc.holds ++ s.up)
    (hop : s'.pc.opening = s.pc.opening) (hsends : s'.pc.Sends s.ahead) (hfits : s'.pc.Fits s'.ctx)
    (hevents : ∃ vals : List Nat, ingressBytes.emitted s.ahead s'.pc.toSend =
      ingressBytes.emitted s.ahead s.pc.toSend ++ vals.map .credit) : s'.Inv := by
  have hinc : s'.incoming = s.incoming := by rw [incoming, incoming, hop, hheld]
  have hahead : s'.ahead = s.ahead := by rw [ahead, hk.target, hk.down, ahead]
  constructor
  case backed => exact h.backed.of_eq hk.input hk.credit
  case capped => exact hk.credit ▸ h.capped
  case fits => exact hfits
  case sends => exact hahead ▸ hsends
  case balanced => exact hinc ▸ h.balanced.kept hk
  case opening =>
    intro ho
    obtain ⟨hfed, hann, vals, hvals⟩ := h.opening (hop ▸ ho)
    obtain ⟨vals', hvals'⟩ := hevents
    constructor
    · rw [hk.fed, hfed]
    · rw [hk.target, hinc]
      exact hann
    · refine ⟨vals ++ vals', ?_⟩
      rw [Transducer.emitted_append] at hvals
      rw [hk.target, hk.down, Transducer.emitted_append, List.map_append, ← List.append_assoc, ← hvals,
        List.append_assoc]
      exact congrArg _ hvals'
  case running =>
    intro ho
    obtain ⟨hcom, hno⟩ := h.running (hop ▸ ho)
    exact ⟨hk.target ▸ hcom, by rw [hk.target, hk.down]; exact hno⟩

/-- The host goes on, and has the same bytes to write as before. -/
theorem Inv.goto (h : s.Inv) (hk : s.Kept s') (hheld : s'.pc.holds ++ s'.up = s.pc.holds ++ s.up)
    (hop : s'.pc.opening = s.pc.opening) (hsend : s'.pc.toSend = s.pc.toSend) (hsends : s'.pc.Sends s.ahead)
    (hfits : s'.pc.Fits s'.ctx) : s'.Inv :=
  h.promise hk hheld hop hsends hfits ⟨[], by rw [hsend, List.map_nil, List.append_nil]⟩

/-- The host writes a byte, which brings the credit that it adds. -/
theorem Inv.push (h : s.Inv) {b : UInt8} {pc : Pc} {credit : Nat} (hsend : s.pc.toSend = b :: pc.toSend)
    (hheld : pc.holds = s.pc.holds) (hop : pc.opening = s.pc.opening)
    (hcredit : credit = s.ctx.credit + granted (ingressBytes.emit s.ahead b))
    (hle : credit ≤ cbufFreeLevel s.ctx.inputBuffer) (hcap : credit < 2 ^ 15)
    (hsends : pc.Sends (ingressBytes.next s.ahead b)) (hfits : pc.Fits { s.ctx with credit := credit })
    (hno : s.pc.opening = false → ∀ v, .comReset v ∉ ingressBytes.emit s.ahead b) :
    { s.push b pc with ctx := { s.ctx with credit := credit } }.Inv := by
  have hemit := emitted_push s b pc
  have hinc : (s.push b pc).incoming = s.incoming := by
    have hup : (s.push b pc).up = s.up := rfl
    have hpc : (s.push b pc).pc = pc := rfl
    rw [incoming, hpc, hup, hop, hheld, incoming]
  constructor
  case backed => exact ⟨h.backed.fits, hle⟩
  case capped => exact hcap
  case fits => exact hfits
  case sends =>
    rw [← ahead_push s b pc] at hsends
    exact hsends
  case balanced =>
    have hb := h.balanced
    rw [← hinc] at hb
    refine ⟨hb.sync, ?_, hb.pass⟩
    have hsum := hb.sum
    have hflight : (s.push b pc).inFlight = s.inFlight + granted (ingressBytes.emit s.ahead b) := by
      rw [inFlight, show (s.push b pc).target = s.target from rfl, hemit, granted_append]
      rfl
    calc credit = s.ctx.credit + granted (ingressBytes.emit s.ahead b) := hcredit
      _ = s.target.debtor + (s.push b pc).inFlight +
          ((wordsOf (s.push b pc).incoming).length + s.target.egress.halfSent) := by
        rw [hsum, hflight]
        omega
  case opening =>
    intro ho
    obtain ⟨hfed, hann, vals, hvals⟩ := h.opening (hop ▸ ho)
    rw [← hinc] at hann
    refine ⟨hfed, hann, vals, ?_⟩
    rw [hsend, List.append_cons] at hvals
    exact hvals
  case running =>
    intro ho
    have ho' : s.pc.opening = false := hop ▸ ho
    obtain ⟨hcom, hevents⟩ := h.running ho'
    refine ⟨hcom, fun v hv => ?_⟩
    have hv : .comReset v ∈ ingressBytes.emitted s.target.ingress (s.push b pc).down := hv
    rw [hemit] at hv
    rcases List.mem_append.mp hv with hv | hv
    · exact hevents v hv
    · exact hno ho' v hv

/-- A message of the host that gives no credit and does not reset the communication. -/
theorem Inv.push_plain (h : s.Inv) {b : UInt8} {pc : Pc} {ms : List HostMessage} (hsend : s.pc.toSend = b :: pc.toSend)
    (hheld : pc.holds = s.pc.holds) (hop : pc.opening = s.pc.opening) (hmid : Mid s.ahead (b :: pc.toSend) ms)
    (hms : ∀ x ∈ ms, (∃ w, x = .word w) ∨ (∃ v, x = .logicReset v) ∨ s.pc.opening = true ∧ ∃ v, x = .comReset v)
    (hsends : pc.Sends (ingressBytes.next s.ahead b)) (hfits : pc.Fits s.ctx) : (s.push b pc).Inv := by
  have hevents : ∀ e ∈ ingressBytes.emit s.ahead b, (∃ w, e = .word w) ∨ (∃ v, e = .logicReset v) ∨
      s.pc.opening = true ∧ ∃ v, e = .comReset v := by
    intro e he
    obtain ⟨x, hx, rfl⟩ := List.mem_map.mp (hmid.push.2 e he)
    rcases hms x hx with ⟨w, rfl⟩ | ⟨v, rfl⟩ | ⟨ho, v, rfl⟩
    · exact .inl ⟨w, rfl⟩
    · exact .inr (.inl ⟨v, rfl⟩)
    · exact .inr (.inr ⟨ho, v, rfl⟩)
  have hzero : granted (ingressBytes.emit s.ahead b) = 0 := by
    apply granted_eq_zero
    intro val hval
    rcases hevents _ hval with ⟨w, hw⟩ | ⟨v, hv⟩ | ⟨-, v, hv⟩ <;> contradiction
  refine h.push hsend hheld hop (by rw [hzero]; rfl) h.backed.credit_le h.capped hsends hfits fun hop v hv => ?_
  rcases hevents _ hv with ⟨w, hw⟩ | ⟨v', hv'⟩ | ⟨ho, -⟩
  · cases hw
  · cases hv'
  · rw [hop] at ho
    cases ho

section Messages
variable {b first second : UInt8} {rest : List UInt8}

theorem Balanced.drop_credit (h : s.Balanced (marker :: first :: second :: rest)) (hf : first ≠ marker) :
    s.Balanced rest := by
  have hwhole := whole_credit hf second
  have h : s.Balanced ([marker, first, second] ++ rest) := h
  have hsum := h.sum
  rw [hwhole.wordsOf_append, wordsOf_credit hf] at hsum
  exact ⟨hwhole.after_append rest ▸ h.sync, hsum, h.pass⟩

theorem Balanced.drop_word (h : s.Balanced (wordBytes b ++ rest)) (q : List UInt8) :
    0 < s.ctx.credit ∧
      { s with ctx := { s.ctx with inputBuffer := q, credit := s.ctx.credit - 1 } }.Balanced rest := by
  have hwhole := whole_word b
  have hsum := h.sum
  rw [hwhole.wordsOf_append, wordsOf_word, List.length_append, List.length_singleton] at hsum
  refine ⟨by omega, hwhole.after_append rest ▸ h.sync, ?_, h.pass⟩
  have hflight : ({ s with ctx := { s.ctx with inputBuffer := q, credit := s.ctx.credit - 1 } } : Link).inFlight =
    s.inFlight := rfl
  rw [hflight]
  dsimp only
  omega

end Messages

variable {n : Nat} {junk : Nat → UInt8}

/-- The host has dealt with a message of the target that brings no word. -/
private theorem Inv.dealt (h : s.Inv) (hk : s.Kept s') (hop : s.pc.opening = false) (hop' : s'.pc.opening = false)
    (hsends : s'.pc.Sends s.ahead) (hbal : s.Balanced (s'.pc.holds ++ s'.up)) (hfits : s'.pc.Fits s'.ctx) :
    s'.Inv := by
  have hinc : s'.incoming = s'.pc.holds ++ s'.up := by simp [incoming, hop']
  have hahead : s'.ahead = s.ahead := by rw [ahead, hk.target, hk.down, ahead]
  obtain ⟨hcom, hevents⟩ := h.running hop
  constructor
  case backed => exact h.backed.of_eq hk.input hk.credit
  case capped => exact hk.credit ▸ h.capped
  case fits => exact hfits
  case sends => exact hahead ▸ hsends
  case balanced => exact hinc ▸ hbal.kept hk
  case opening => simp [hop']
  case running => exact fun _ => ⟨hk.target ▸ hcom, by rw [hk.target, hk.down]; exact hevents⟩

private theorem Inv.moved (h : s.Inv) (hk : s.Kept s') (hop : s.pc.opening = false) (hop' : s'.pc.opening = false)
    (hsends : s'.pc.Sends s.ahead) (hheld : s'.pc.holds ++ s'.up = s.pc.holds ++ s.up) (hfits : s'.pc.Fits s'.ctx) :
    s'.Inv := by
  apply h.dealt hk hop hop' hsends
  · rw [hheld]
    simpa [incoming, hop] using h.balanced
  · exact hfits

/-- `reset` is over. -/
private theorem Inv.opened (h : s.Inv) (hk : s.Kept s') {second : UInt8} {first : UInt8} (hop : s.pc.opening = true)
    (hinc : s.incoming = marker :: first :: second :: s'.up) (hpc : s'.pc = .top)
    (hsend : s.pc.toSend = []) (hmid : s.ahead.state = .passthrough) : s'.Inv := by
  obtain ⟨hfed, hann, vals, hvals⟩ := h.opening hop
  obtain ⟨-, hfirst, hcom⟩ := (hinc ▸ hann).two
  have hb := h.balanced
  rw [hinc] at hb
  have hinc' : s'.incoming = s'.up := by simp [incoming, hpc, Pc.opening, Pc.holds]
  constructor
  case backed => exact h.backed.of_eq hk.input hk.credit
  case capped => exact hk.credit ▸ h.capped
  case fits =>
    rw [hpc]
    trivial
  case sends =>
    rw [hpc, ahead, hk.target, hk.down]
    exact hmid
  case balanced =>
    rw [hinc']
    exact (hb.drop_credit hfirst).kept hk
  case opening => simp [hpc, Pc.opening]
  case running =>
    intro
    rw [hcom, hsend, List.append_nil] at hvals
    refine ⟨hk.target ▸ hcom, fun v hv => ?_⟩
    rw [hk.target, hk.down, hvals] at hv
    simp at hv

private theorem Inv.debtStep (h : s.Inv) {got : List UInt8} (hpc : s.pc = .debt got)
    (hs : s.debtStep got = some s') : s'.Inv := by
  have hop : s.pc.opening = true := by rw [hpc]; rfl
  have hsend : s.pc.toSend = [] := by rw [hpc]; rfl
  have hmid : s.ahead.state = .passthrough := by simpa [hpc, Pc.Sends] using h.sends
  have hinc : s.incoming = untrashed (got ++ s.up) := by simp [incoming, hpc, Pc.opening, Pc.holds]
  have more (b : UInt8) (up : List UInt8) (hup : s.up = b :: up) (hfits : (Pc.debt (got ++ [b])).Fits s.ctx) :
      { s with up := up, pc := .debt (got ++ [b]) }.Inv := by
    apply h.goto
    · exact ⟨rfl, rfl, rfl, rfl, rfl, rfl⟩
    · simp [hpc, Pc.holds, hup]
    · rw [hop]
      rfl
    · rw [hsend]
      rfl
    · exact hmid
    · exact hfits
  unfold Link.debtStep at hs
  split at hs
  case h_1 d0 d1 d2 =>
    split at hs
    case isTrue hd0 =>
      split at hs
      case h_1 b up hup =>
        obtain rfl := Option.some_inj.mp hs
        apply more b up hup
        rintro _ _ _ _ ⟨⟩
        exact hd0
      case h_2 => cases hs
    case isFalse hd0 =>
      obtain rfl := Option.some_inj.mp hs
      have hinc' : s.incoming = marker :: d1 :: d2 :: s.up := by
        rw [hinc, Decidable.not_not.mp hd0]
        simp [untrashed]
      exact h.opened ⟨rfl, rfl, rfl, rfl, rfl, rfl⟩ hop hinc' rfl hsend hmid
  case h_2 d0 d1 d2 d3 =>
    have hd0 : d0 ≠ marker := by
      have := h.fits
      rw [hpc] at this
      exact this d0 d1 d2 d3 rfl
    have hinc' : s.incoming = d1 :: d2 :: d3 :: s.up := by rw [hinc]; simp [untrashed, hd0]
    obtain rfl : d1 = marker := (hinc' ▸ (h.opening hop).announcing).two.1
    rw [if_pos rfl] at hs
    obtain rfl := Option.some_inj.mp hs
    exact h.opened ⟨rfl, rfl, rfl, rfl, rfl, rfl⟩ hop hinc' rfl hsend hmid
  case h_3 h3 h4 =>
    split at hs
    case h_1 b up hup =>
      obtain rfl := Option.some_inj.mp hs
      apply more b up hup
      intro d0 d1 d2 d3 hgot
      obtain ⟨rfl, -⟩ := List.append_inj' (show got ++ [b] = [d0, d1, d2] ++ [d3] from hgot) rfl
      exact absurd rfl (h3 d0 d1 d2)
    case h_2 => cases hs

private theorem Inv.readStep (h : s.Inv) {avail : Nat} (hpc : s.pc = .read avail)
    (hs : s.readStep n junk avail = some s') : s'.Inv := by
  have hmid : s.ahead.state = .passthrough := by simpa [hpc, Pc.Sends] using h.sends
  have hinc : s.incoming = s.up := by simp [incoming, hpc, Pc.opening, Pc.holds]
  have hop : s.pc.opening = false := by rw [hpc]; rfl
  obtain ⟨hn, hs⟩ := Option.ite_none_right_eq_some.mp hs
  by_cases hn0 : n = 0
  · rw [if_pos hn0] at hs
    obtain rfl := Option.some_inj.mp hs
    exact h.moved ⟨rfl, rfl, rfl, rfl, rfl, rfl⟩ hop rfl hmid (by rw [hpc]; rfl) trivial
  rw [if_neg hn0] at hs
  by_cases hav : avail = 0
  · have hzero : s.ctx.credit = 0 := by
      have := h.fits
      rw [hpc] at this
      exact this hav
    rw [if_pos hav] at hs hn
    obtain rfl : n = 1 := by omega
    obtain ⟨b, up, hup⟩ := List.exists_cons_of_length_pos (show 0 < s.up.length by omega)
    have hb : b = marker := by
      by_contra hb
      have hbal := h.balanced
      rw [hinc, hup, show b :: up = wordBytes b ++ up by simp [wordBytes, hb]] at hbal
      have := (hbal.drop_word []).1
      omega
    subst hb
    simp only [hup, List.take_succ_cons, List.take_zero, if_true, List.drop_succ_cons, List.drop_zero] at hs
    obtain rfl := Option.some_inj.mp hs
    refine h.moved ⟨rfl, rfl, rfl, rfl, rfl, rfl⟩ hop rfl hmid ?_ ?_
    · rw [hpc, hup]
      rfl
    · exact ⟨hzero, Nat.zero_le 1⟩
  · rw [if_neg hav] at hs
    obtain rfl := Option.some_inj.mp hs
    refine h.moved ⟨rfl, rfl, rfl, rfl, rfl, rfl⟩ hop rfl hmid ?_ ?_
    · simp [hpc, Pc.holds, Parse.rest_call]
    · exact Parse.ok_call junk (s.up.take n)

private theorem Inv.fullStep (h : s.Inv) {got : List UInt8} (hpc : s.pc = .full got)
    (hs : s.fullStep got = some s') : s'.Inv := by
  have hmid : s.ahead.state = .passthrough := by simpa [hpc, Pc.Sends] using h.sends
  have hinc : s.incoming = marker :: got ++ s.up := by simp [incoming, hpc, Pc.opening, Pc.holds]
  have hfits := h.fits
  rw [hpc] at hfits
  obtain ⟨hzero, hlen⟩ := hfits
  have hop : s.pc.opening = false := by rw [hpc]; rfl
  unfold Link.fullStep at hs
  split at hs
  case h_1 =>
    split at hs
    case h_1 b up hup =>
      obtain rfl := Option.some_inj.mp hs
      refine h.moved ⟨rfl, rfl, rfl, rfl, rfl, rfl⟩ hop rfl hmid ?_ ?_
      · simp [hpc, Pc.holds, hup]
      · exact ⟨hzero, Nat.le_refl 1⟩
    case h_2 => cases hs
  case h_2 first got =>
    obtain rfl : got = [] := List.length_eq_zero_iff.mp (by simpa using hlen)
    split at hs
    case h_1 b up hup =>
      obtain rfl := Option.some_inj.mp hs
      have hbal := h.balanced
      rw [hinc, hup] at hbal
      -- without credit the target cannot be in the middle of a word
      have hfirst : first ≠ marker := by
        rintro rfl
        have : s.Balanced (wordBytes marker ++ b :: up) := hbal
        have := (this.drop_word []).1
        omega
      exact h.dealt ⟨rfl, rfl, rfl, rfl, rfl, rfl⟩ hop rfl hmid (hbal.drop_credit hfirst) trivial
    case h_2 => cases hs

private theorem Inv.storeWord (h : s.Inv) {p next : Parse} {b : UInt8} (hpc : s.pc = .parse p)
    (hnext : next.Ok) (hrest : p.rest = wordBytes b ++ next.rest) :
    ∃ ctx, s.ctx.storeWord b = some ctx ∧ { s with ctx := ctx, pc := .parse next }.Inv := by
  have hinc : s.incoming = wordBytes b ++ (next.rest ++ s.up) := by
    simp [incoming, hpc, Pc.opening, Pc.holds, hrest]
  have hbal := h.balanced
  rw [hinc] at hbal
  obtain ⟨hpos, hbal⟩ := hbal.drop_word (s.ctx.inputBuffer ++ [b])
  have hstore := BackendCtx.storeWord_eq h.backed b hpos
  have hcap := h.capped
  have hmid : s.ahead.state = .passthrough := by simpa [hpc, Pc.Sends] using h.sends
  obtain ⟨hcom, hevents⟩ := h.running (by rw [hpc]; rfl)
  refine ⟨_, hstore, ?_⟩
  constructor
  case backed => exact h.backed.storeWord hstore
  case capped =>
    dsimp only
    omega
  case fits => exact hnext
  case sends => exact hmid
  case balanced => exact ⟨hbal.sync, hbal.sum, hbal.pass⟩
  case opening => exact fun hop => (by cases hop)
  case running => exact fun _ => ⟨hcom, hevents⟩

private theorem Inv.parseStep (h : s.Inv) {p : Parse} (hpc : s.pc = .parse p) (hs : s.parseStep p = some s') :
    s'.Inv := by
  have hmid : s.ahead.state = .passthrough := by simpa [hpc, Pc.Sends] using h.sends
  have hok : p.Ok := by simpa [hpc, Pc.Fits] using h.fits
  have hrun : s.pc.opening = false := by rw [hpc]; rfl
  unfold Link.parseStep at hs
  cases hop : p.op with
  | finished =>
    have hrest : p.rest = [] := Parse.takes hok hop
    simp only [hop] at hs
    obtain rfl := Option.some_inj.mp hs
    refine h.moved ⟨rfl, rfl, rfl, rfl, rfl, rfl⟩ hrun rfl hmid ?_ ?_
    · simp [hpc, Pc.holds, hrest]
    · trivial
  | word b next =>
    obtain ⟨hnext, -, hrest⟩ := Parse.takes hok hop
    obtain ⟨ctx, hstore, hinv⟩ := h.storeWord hpc hnext hrest
    simp only [hop, hstore] at hs
    obtain rfl := Option.some_inj.mp hs
    exact hinv
  | debt first second next =>
    obtain ⟨hnext, -, hfirst, hrest⟩ := Parse.takes hok hop
    simp only [hop] at hs
    obtain rfl := Option.some_inj.mp hs
    have hinc : s.incoming = marker :: first :: second :: (next.rest ++ s.up) := by
      simp [incoming, hpc, Pc.opening, Pc.holds, hrest]
    have hbal := h.balanced
    rw [hinc] at hbal
    exact h.dealt ⟨rfl, rfl, rfl, rfl, rfl, rfl⟩ hrun rfl hmid (hbal.drop_credit hfirst) hnext
  | read next =>
    obtain ⟨-, hnext⟩ := Parse.takes hok hop
    simp only [hop] at hs
    split at hs
    case h_1 b up hup =>
      obtain ⟨hnextOk, -, hrest⟩ := hnext b
      obtain rfl := Option.some_inj.mp hs
      refine h.moved ⟨rfl, rfl, rfl, rfl, rfl, rfl⟩ hrun rfl hmid ?_ ?_
      · simp [hpc, Pc.holds, hrest, hup]
      · exact hnextOk
    case h_2 => cases hs
  | wait next =>
    obtain ⟨-, -, hnext, -, hrest⟩ := Parse.takes hok hop
    simp only [hop] at hs
    obtain rfl := Option.some_inj.mp hs
    by_cases hcredit : 2 ≤ s.ctx.credit
    · rw [if_pos hcredit]
      refine h.moved ⟨rfl, rfl, rfl, rfl, rfl, rfl⟩ hrun rfl hmid ?_ ?_
      · simp [hpc, Pc.holds, hrest]
      · exact hnext
    · rw [if_neg hcredit]
      refine h.moved ⟨rfl, rfl, rfl, rfl, rfl, rfl⟩ hrun rfl hmid ?_ ?_
      · simp [hpc, Pc.holds]
      · refine ⟨hok, ?_⟩
        simp only [maxTranche]
        omega

private theorem Inv.writeLevelStep (h : s.Inv) (hpc : s.pc = .writeLevel) (hs : s.writeLevelStep n = some s') :
    s'.Inv := by
  have hmid : s.ahead.state = .passthrough := by simpa [hpc, Pc.Sends] using h.sends
  have more (pc : Pc) (hpc' : pc = .update ∨ ∃ size, pc = .writeRead size) : { s with pc := pc }.Inv := by
    have hop : s.pc.opening = false := by rw [hpc]; rfl
    rcases hpc' with rfl | ⟨size, rfl⟩
    · exact h.moved ⟨rfl, rfl, rfl, rfl, rfl, rfl⟩ hop rfl hmid (by rw [hpc]; rfl) trivial
    · exact h.moved ⟨rfl, rfl, rfl, rfl, rfl, rfl⟩ hop rfl hmid (by rw [hpc]; rfl) trivial
  unfold Link.writeLevelStep at hs
  split at hs
  · obtain rfl := Option.some_inj.mp hs
    exact more _ (.inl rfl)
  · split at hs
    · obtain rfl := Option.some_inj.mp hs
      apply more
      split
      · exact .inl rfl
      · exact .inr ⟨_, rfl⟩
    · cases hs

private theorem Inv.writeReadStep (h : s.Inv) {size : Nat} (hpc : s.pc = .writeRead size)
    (hs : s.writeReadStep n size = some s') : s'.Inv := by
  have hmid : s.ahead.state = .passthrough := by simpa [hpc, Pc.Sends] using h.sends
  have hop : s.pc.opening = false := by rw [hpc]; rfl
  unfold Link.writeReadStep at hs
  split at hs
  · obtain rfl := Option.some_inj.mp hs
    refine h.moved ⟨rfl, rfl, rfl, rfl, rfl, rfl⟩ hop rfl ?_ (by rw [hpc]; rfl) trivial
    have hmid := Mid.start hmid ((s.ctx.outputBuffer.take size).map .word)
    rw [List.flatMap_map] at hmid
    exact ⟨_, hmid⟩
  · obtain rfl := Option.some_inj.mp hs
    exact h.moved ⟨rfl, rfl, rfl, rfl, rfl, rfl⟩ hop rfl hmid (by rw [hpc]; rfl) (.inr rfl)

private theorem Inv.grantStep (h : s.Inv) {ret : Caller} {add : Nat} {bs : List UInt8} (hpc : s.pc = .grant ret add bs)
    (hs : s.grantStep ret add bs = some s') : s'.Inv := by
  have hsends := h.sends
  have hfits := h.fits
  rw [hpc] at hsends hfits
  obtain ⟨-, t, rfl, hmid⟩ := hsends
  obtain ⟨hok, hcredit, hadd, hfree⟩ := hfits
  have hle := BackendCtx.freeLevel_le s.ctx.inputBuffer
  unfold Link.grantStep at hs
  split at hs
  case h_1 => cases hs
  case h_2 b =>
    have hemit := hmid.credit_last
    rw [sizeAdd_eq (show s.ctx.credit + t.val < 2 ^ 64 by omega)] at hs
    obtain rfl := Option.some_inj.mp hs
    apply h.push
    · cases ret <;> simp [hpc, Pc.toSend, Caller.pc]
    · cases ret <;> simp [hpc, Pc.holds, Caller.pc]
    · cases ret <;> simp [hpc, Pc.opening, Caller.pc]
    · rw [hemit]
      rfl
    · exact hfree
    · simp only [maxTranche] at hcredit hadd
      omega
    · have := hmid.push.1.finish
      cases ret <;> exact this
    · cases ret
      · simp [Caller.pc, Pc.Fits]
      · exact hok
      · trivial
    · intro _ v hv
      simp [hemit] at hv
  case h_3 b bs hne =>
    obtain ⟨b', bs, rfl⟩ := List.exists_cons_of_ne_nil hne
    have hemit := hmid.credit_push
    obtain rfl := Option.some_inj.mp hs
    apply h.push
    · simp [hpc, Pc.toSend]
    · cases ret <;> simp [hpc, Pc.holds]
    · cases ret <;> simp [hpc, Pc.opening]
    · rw [hemit]
      rfl
    · exact h.backed.credit_le
    · exact h.capped
    · exact ⟨by simp, t, rfl, hmid.push.1⟩
    · exact ⟨hok, hcredit, hadd, hfree⟩
    · simp [hemit]

private theorem Inv.updateCredit (h : s.Inv) {ret : Caller} (hpc : s.pc = .credit ret) :
    ({ s with pc := if s.ctx.targetCreditAdd = 0 then ret.pc
        else .grant ret s.ctx.targetCreditAdd (creditBytes s.ctx.targetCreditAdd) } : Link).Inv := by
  have hmid : s.ahead.state = .passthrough := by simpa [hpc, Pc.Sends] using h.sends
  have hfits := h.fits
  rw [hpc] at hfits
  obtain ⟨hok, hcredit⟩ := hfits
  have hadd := BackendCtx.targetCreditAdd_eq h.backed
  have hle := h.backed.credit_le
  by_cases h0 : s.ctx.targetCreditAdd = 0
  · rw [if_pos h0]
    apply h.goto
    · exact ⟨rfl, rfl, rfl, rfl, rfl, rfl⟩
    · cases ret <;> simp [hpc, Pc.holds, Caller.pc]
    · cases ret <;> simp [hpc, Pc.opening, Caller.pc]
    · cases ret <;> simp [hpc, Pc.toSend, Caller.pc]
    · cases ret <;> exact hmid
    · cases ret
      · simp [Caller.pc, Pc.Fits]
      · exact hok
      · trivial
  · rw [if_neg h0]
    let t : Tranche := ⟨s.ctx.targetCreditAdd, by omega, by omega⟩
    obtain ⟨-, hemitted⟩ := decode_credit s.ahead t hmid
    apply h.promise
    · exact ⟨rfl, rfl, rfl, rfl, rfl, rfl⟩
    · cases ret <;> simp [hpc, Pc.holds]
    · cases ret <;> simp [hpc, Pc.opening]
    · exact ⟨by simp [creditBytes], t, rfl, Mid.start hmid [.credit t]⟩
    · exact ⟨hok, hcredit, t.le_max, by dsimp only; omega⟩
    · exact ⟨[t.val], by rw [hpc]; exact hemitted⟩

/-- What is written without giving credit. -/
private theorem Inv.pushStep (h : s.Inv) {b : UInt8} {bs : List UInt8} {pc : Pc}
    (hpc : s.pc = .release (b :: bs) ∧ pc = .release bs ∨ s.pc = .resetLogic (b :: bs) ∧ pc = .resetLogic bs ∨
      ∃ size, s.pc = .send (b :: bs) size ∧ pc = .send bs size) : (s.push b pc).Inv := by
  have hsends := h.sends
  have hfits := h.fits
  rcases hpc with ⟨hpc, rfl⟩ | ⟨hpc, rfl⟩ | ⟨size, hpc, rfl⟩ <;> rw [hpc] at hsends hfits
  · exact h.push_plain (by rw [hpc]; rfl) (by rw [hpc]; rfl) (by rw [hpc]; rfl) hsends
      (by simp [hpc, Pc.opening]) hsends.push.1 hfits
  · exact h.push_plain (by rw [hpc]; rfl) (by rw [hpc]; rfl) (by rw [hpc]; rfl) hsends (by simp) hsends.push.1 hfits
  · obtain ⟨ws, hmid⟩ := hsends
    exact h.push_plain (by rw [hpc]; rfl) (by rw [hpc]; rfl) (by rw [hpc]; rfl) hmid (by simp) ⟨ws, hmid.push.1⟩ hfits

theorem Inv.host (h : s.Inv) (hs : s.hostStep n junk = some s') : s'.Inv := by
  have hsends := h.sends
  have hfits := h.fits
  unfold hostStep at hs
  cases hpc : s.pc with
  | release bs =>
    cases bs with
    | nil =>
      simp only [hpc] at hs hsends hfits
      obtain rfl := Option.some_inj.mp hs
      apply h.goto
      · exact ⟨rfl, rfl, rfl, rfl, rfl, rfl⟩
      · simp [hpc, Pc.holds]
      · simp [hpc, Pc.opening]
      · simp [hpc, Pc.toSend]
      · exact hsends.finish
      · exact hfits
    | cons b bs =>
      simp only [hpc] at hs
      obtain rfl := Option.some_inj.mp hs
      exact h.pushStep (.inl ⟨hpc, rfl⟩)
  | clear =>
    have hclear : s.ctx.clear = some { s.ctx with inputBuffer := [], outputBuffer := [], debt := 0 } := by
      simp [BackendCtx.clear]
    simp only [hpc, hclear] at hs hsends hfits
    obtain rfl := Option.some_inj.mp hs
    have hle := h.backed.credit_le
    have hcleared : cbufFreeLevel s.ctx.inputBuffer ≤ cbufFreeLevel [] := by
      simp [cbufFreeLevel]
    have hinv : { s with ctx := { s.ctx with inputBuffer := [], outputBuffer := [], debt := 0 } }.Inv :=
      h.ctx ⟨Nat.zero_le _, Nat.le_trans hle hcleared⟩ rfl hcleared
    apply hinv.goto
    · exact ⟨rfl, rfl, rfl, rfl, rfl, rfl⟩
    · simp [hpc, Pc.holds]
    · simp [hpc, Pc.opening]
    · simp [hpc, Pc.toSend]
    · exact hsends
    · exact ⟨trivial, hfits⟩
  | debt got =>
    simp only [hpc] at hs
    exact h.debtStep hpc hs
  | top =>
    simp only [hpc] at hs hsends
    obtain rfl := Option.some_inj.mp hs
    split
    · refine h.moved ⟨rfl, rfl, rfl, rfl, rfl, rfl⟩ (by rw [hpc]; rfl) rfl ?_ (by rw [hpc]; rfl) trivial
      exact Mid.start hsends [.logicReset true, .logicReset false]
    · exact h.moved ⟨rfl, rfl, rfl, rfl, rfl, rfl⟩ (by rw [hpc]; rfl) rfl hsends (by rw [hpc]; rfl) trivial
  | resetLogic bs =>
    cases bs with
    | nil =>
      simp only [hpc] at hs hsends
      obtain rfl := Option.some_inj.mp hs
      exact h.moved ⟨rfl, rfl, rfl, rfl, rfl, rfl⟩ (by rw [hpc]; rfl) rfl hsends.finish (by rw [hpc]; rfl) trivial
    | cons b bs =>
      simp only [hpc] at hs
      obtain rfl := Option.some_inj.mp hs
      exact h.pushStep (.inr (.inl ⟨hpc, rfl⟩))
  | term =>
    simp only [hpc] at hs hsends
    obtain rfl := Option.some_inj.mp hs
    split
    · exact h.moved ⟨rfl, rfl, rfl, rfl, rfl, rfl⟩ (by rw [hpc]; rfl) rfl hsends (by rw [hpc]; rfl) (.inl rfl)
    · exact h.moved ⟨rfl, rfl, rfl, rfl, rfl, rfl⟩ (by rw [hpc]; rfl) rfl hsends (by rw [hpc]; rfl) trivial
  | readLevel =>
    simp only [hpc] at hs hsends
    obtain rfl := Option.some_inj.mp hs
    have hle := h.backed.credit_le
    refine h.moved ⟨rfl, rfl, rfl, rfl, rfl, rfl⟩ (by rw [hpc]; rfl) rfl hsends (by rw [hpc]; rfl) fun h0 => ?_
    exact Nat.le_zero.mp (h0 ▸ h.backed.credit_le)
  | read avail =>
    simp only [hpc] at hs
    exact h.readStep hpc hs
  | full got =>
    simp only [hpc] at hs
    exact h.fullStep hpc hs
  | parse p =>
    simp only [hpc] at hs
    exact h.parseStep hpc hs
  | writeLevel =>
    simp only [hpc] at hs
    exact h.writeLevelStep hpc hs
  | writeRead size =>
    simp only [hpc] at hs
    exact h.writeReadStep hpc hs
  | send bs size =>
    cases bs with
    | nil =>
      simp only [hpc] at hs hsends
      obtain rfl := Option.some_inj.mp hs
      obtain ⟨ws, hmid⟩ := hsends
      exact h.moved ⟨rfl, rfl, rfl, rfl, rfl, rfl⟩ (by rw [hpc]; rfl) rfl hmid.finish (by rw [hpc]; rfl) trivial
    | cons b bs =>
      simp only [hpc] at hs
      obtain rfl := Option.some_inj.mp hs
      exact h.pushStep (.inr (.inr ⟨size, hpc, rfl⟩))
  | update =>
    simp only [hpc] at hs hsends
    obtain rfl := Option.some_inj.mp hs
    split
    case isTrue hlt =>
      exact h.moved ⟨rfl, rfl, rfl, rfl, rfl, rfl⟩ (by rw [hpc]; rfl) rfl hsends (by rw [hpc]; rfl) ⟨trivial, hlt⟩
    case isFalse =>
      exact h.moved ⟨rfl, rfl, rfl, rfl, rfl, rfl⟩ (by rw [hpc]; rfl) rfl hsends (by rw [hpc]; rfl) trivial
  | credit ret =>
    simp only [hpc] at hs
    obtain rfl := Option.some_inj.mp hs
    exact h.updateCredit hpc
  | grant ret add bs =>
    simp only [hpc] at hs
    exact h.grantStep hpc hs
  | stopped why => simp [hpc] at hs

theorem Inv.step (h : s.Inv) (hs : Step s s') : s'.Inv := by
  cases hs with
  | host _ n junk hs => exact h.host hs
  | userRead n hn =>
    have hlen : (s.ctx.inputBuffer.drop n).length = s.ctx.inputBuffer.length - n := List.length_drop
    have hfits := h.backed.fits
    have hfree : cbufFreeLevel s.ctx.inputBuffer ≤ cbufFreeLevel (s.ctx.inputBuffer.drop n) := by
      unfold cbufFreeLevel
      omega
    exact h.ctx ⟨by dsimp only; omega, Nat.le_trans h.backed.credit_le hfree⟩ rfl hfree
  | userWrite data hdata => exact h.ctx ⟨h.backed.fits, h.backed.credit_le⟩ rfl (Nat.le_refl _)
  | userReset => exact h.goto ⟨rfl, rfl, rfl, rfl, rfl, rfl⟩ rfl rfl rfl h.sends h.fits
  | userClose => exact h.goto ⟨rfl, rfl, rfl, rfl, rfl, rfl⟩ rfl rfl rfl h.sends h.fits
  | logic word =>
    have hb := h.balanced
    refine ⟨h.backed, h.capped, h.fits, h.sends, ⟨hb.sync, hb.sum, fun hp => ?_⟩, fun hop => ?_, fun hop => ?_⟩
    · exact ⟨(hb.pass hp).1, by simp⟩
    · exact ⟨(h.opening hop).fed, (h.opening hop).announcing, (h.opening hop).events⟩
    · exact ⟨(h.running hop).comRst, (h.running hop).events⟩
  | clock c hc => exact h.clock hc

theorem Reachable.inv (h : s.Reachable) : s.Inv := by
  obtain ⟨s₀, hstart, hsteps⟩ := h
  induction hsteps with
  | refl => exact .start hstart
  | tail _ hstep ih => exact ih.step hstep

/-- The words of the user that the debtor has been paid for and that `parse_buffer` has
not stored: those whose bytes have all been sent, and the one whose second byte has not. -/
def paidBack (s : Link) : Nat := (wordsOf s.incoming).length + s.target.egress.halfSent

/-- In every run from `reset` on a new context, the credit that the host counts is the
credit of the debtor, the grants it has not got and the words it has been paid back for,
and there is room for all of it. So `update_credit` subtracts without a wrap, no
assertion on the bytes from the target fails, `cbuf_write` finds room and the debtor
neither overflows nor underflows. -/
theorem egress_credit_safe (s : Link) (h : s.Reachable) :
    s.ctx.credit = s.target.debtor + s.inFlight + s.paidBack ∧
      s.ctx.credit ≤ cbufFreeLevel s.ctx.inputBuffer ∧
      sizeSub (cbufFreeLevel s.ctx.inputBuffer) s.ctx.credit = cbufFreeLevel s.ctx.inputBuffer - s.ctx.credit ∧
      (∀ why, s.pc = .stopped why → why = .terminated ∨ why = .write) ∧
      (∀ p b next, s.pc = .parse p → p.op = .word b next →
        0 < s.ctx.credit ∧ cbufWriteByte s.ctx.inputBuffer b = some (s.ctx.inputBuffer ++ [b])) ∧
      s.target.debtor < 2 ^ 15 ∧
      ∀ c : Cycle, c.Allowed s → debtorError 15 s.target.debtor (s.target.debtorIn (s.controlIn c)) = false := by
  have hinv := h.inv
  have hle := hinv.backed.credit_le
  have hfree := BackendCtx.freeLevel_le s.ctx.inputBuffer
  have hsum : s.ctx.credit = s.target.debtor + s.inFlight + s.paidBack := hinv.balanced.sum
  have hcap := hinv.capped
  refine ⟨hsum, hle, sizeSub_eq hle (by omega), ?_, ?_, by omega, fun c hc => hinv.balanced.debtor_error hc hcap⟩
  · intro why hpc
    have hfits := hinv.fits
    rw [hpc] at hfits
    exact hfits
  · intro p b next hpc hop
    have hfits := hinv.fits
    rw [hpc] at hfits
    obtain ⟨-, -, hrest⟩ := Parse.takes hfits hop
    have hbal := hinv.balanced
    rw [show s.incoming = wordBytes b ++ (next.rest ++ s.up) by
      simp [incoming, hpc, Pc.opening, Pc.holds, hrest]] at hbal
    have hpos := (hbal.drop_word []).1
    exact ⟨hpos, cbufWriteByte_eq b (by omega)⟩

def begun : Link :=
  { pc := .release (resetComBytes 0), ctx := ⟨[], [], 0, 0⟩, resetRequest := false, termRequest := false
    down := [], up := [0x07], target := ⟨⟨.passthrough, 0⟩, .idle, 0, ⟨4090, 0⟩, 0, false, false, true, false⟩
    fromLogic := [], fed := false }

theorem begun_start : begun.Start :=
  ⟨rfl, rfl, rfl, .inr ⟨0x07, by decide, rfl⟩, ⟨rfl, rfl, rfl, rfl, rfl, rfl, rfl, rfl⟩, rfl⟩

def hostMoves (count n : Nat) : List Move := List.replicate count (.host n fun _ => 0)
def receives (count : Nat) : List Move := List.replicate count (.clock ⟨true, false, true, false⟩)
def sends (count : Nat) : List Move := List.replicate count (.clock ⟨false, true, true, false⟩)
def silent : Move := .clock ⟨false, false, true, false⟩

def carries : List Move :=
  hostMoves 8 0 ++ receives 5 ++ sends 3 ++ hostMoves 5 0 ++ [.userWrite [0x55], .logic 0x41, silent] ++ sends 1 ++
    hostMoves 3 0 ++ hostMoves 1 1 ++ hostMoves 2 0 ++ hostMoves 2 1 ++ hostMoves 1 0 ++ receives 1 ++
    [.logic 0x42, silent] ++ sends 1 ++ hostMoves 6 0

theorem carries_run : (links.run begun carries).isSome := by decide +kernel

theorem egress_credit_safe_begun :
    let s := (links.run begun carries).get carries_run
    s.target.debtor = 16381 ∧ s.inFlight = 16383 ∧ s.paidBack = 1 ∧
      s.ctx.credit = s.target.debtor + s.inFlight + s.paidBack := by
  intro s
  have hreach : s.Reachable := ⟨begun, begun_start, links_run (Option.some_get carries_run).symm⟩
  exact ⟨by decide +kernel, by decide +kernel, by decide +kernel, (egress_credit_safe s hreach).1⟩

end Link
end Glip.Uart
