import Glip.Uart.EgressCredit

/-! The words of the user over the whole link, in both directions and over all runs. -/
namespace Glip.Uart
open Foundation

def ingressWords : List IngressEvent → List UInt8
  | [] => []
  | .word b :: es => b :: ingressWords es
  | _ :: es => ingressWords es

@[simp] theorem ingressWords_append (a b : List IngressEvent) :
    ingressWords (a ++ b) = ingressWords a ++ ingressWords b := by
  induction a with
  | nil => rfl
  | cons e a ih => cases e <;> simp [ingressWords, ih]

@[simp] theorem ingressWords_words (ws : List UInt8) : ingressWords (ws.map .word) = ws := by
  induction ws with
  | nil => rfl
  | cons w ws ih => rw [List.map_cons, ingressWords, ih]

theorem ingressWords_eq_nil {es : List IngressEvent} (h : ∀ b, .word b ∉ es) : ingressWords es = [] := by
  induction es with
  | nil => rfl
  | cons e es ih =>
    have hrest : ingressWords es = [] := ih fun b hb => h b (.tail e hb)
    cases e with
    | word b => exact absurd (.head es) (h b)
    | _ => exact hrest

/-- What is left of messages without a word has no words. -/
theorem Mid.ingressWords_eq_nil {r : Ingress} {bs : List UInt8} {ms : List HostMessage} (h : Mid r bs ms)
    (hms : ∀ b, .word b ∉ ms) : ingressWords (ingressBytes.emitted r bs) = [] := by
  obtain ⟨r₀, seen, hr, rfl, hseen⟩ := h
  have hall := (Transducer.decodes (P := fun r => r.state = .passthrough) decode_message ms r₀ hr).2
  rw [← hseen, Transducer.emitted_append] at hall
  apply Uart.ingressWords_eq_nil
  intro b hb
  obtain ⟨m, hm, hword⟩ := List.mem_map.mp (hall ▸ List.mem_append_right _ hb)
  cases m with
  | word b' => exact hms b' hm
  | credit t | logicReset v | comReset v => cases hword

def EgressState.pending : EgressState → List UInt8
  | .passthroughRepeat => [marker]
  | _ => []

/-- A word goes to the host when the state machine takes it, or when the second byte of it is sent. -/
theorem egress_words {f : Framing} {e : EgressState} {i : EgressIn} (creditEn : Bool) (hsync : Synced f e)
    (hdone : i.outDone = true → (e.out i).outEnable = true) (hvalid : e = .passthrough → i.inValid = true) :
    (if i.outDone then words (hostDecoder.emit f (e.out i).outData) else []) ++ (e.nxt i creditEn).pending =
      e.pending ++ if e.transfer i then [i.inData] else [] := by
  cases hd : i.outDone with
  | false =>
    cases e
    case idle =>
      have hidle : (EgressState.idle.nxt i creditEn).pending = [] := by
        simp only [EgressState.nxt]
        split
        · rfl
        · split <;> rfl
      rw [hidle]
      simp [EgressState.transfer, EgressState.out, EgressState.pending]
    all_goals simp [EgressState.nxt, EgressState.out, EgressState.transfer, EgressState.pending, hd]
  | true =>
    have hhigh := creditHigh_ne_marker i.credit
    cases e <;> cases f <;>
      simp_all [Synced, EgressState.nxt, EgressState.out, EgressState.transfer, EgressState.pending, hostDecoder, words]
    by_cases hb : i.inData = marker <;> simp [hb, words]

namespace Link
variable {s s' : Link}

/-- The words of the user in what the host has still to write and in what is on the line, and behind them those that
it has not taken out of its buffer. -/
def outgoing (s : Link) : List UInt8 :=
  ingressWords (ingressBytes.emitted s.target.ingress (s.down ++ s.pc.toSend)) ++ s.ctx.outputBuffer

/-- The words that the host has stored, and behind them those that it has not dealt with. -/
def arriving (s : Link) : List UInt8 := s.ctx.inputBuffer ++ wordsOf s.incoming

/-- A step of the host moves words on and loses none. -/
structure KeepsWords (s s' : Link) : Prop where
  target : s'.target = s.target
  arriving : s'.arriving = s.arriving
  outgoing : s'.outgoing = s.outgoing
  opening : s'.pc.opening = true → s.pc.opening = true ∧ s'.ctx.inputBuffer = s.ctx.inputBuffer

theorem outgoing_eq (s : Link) : s.outgoing = ingressWords (ingressBytes.emitted s.target.ingress s.down) ++
    ingressWords (ingressBytes.emitted s.ahead s.pc.toSend) ++ s.ctx.outputBuffer := by
  rw [outgoing, Transducer.emitted_append, ingressWords_append]
  rfl

/-- The host goes on without a byte to the target. -/
theorem KeepsWords.of_parts (hk : s.Kept s') (houtput : s'.ctx.outputBuffer = s.ctx.outputBuffer)
    (hwords : wordsOf s'.incoming = wordsOf s.incoming)
    (hsend : ingressWords (ingressBytes.emitted s.ahead s'.pc.toSend) =
      ingressWords (ingressBytes.emitted s.ahead s.pc.toSend))
    (hop : s'.pc.opening = true → s.pc.opening = true) : s.KeepsWords s' where
  target := hk.target
  arriving := by rw [Link.arriving, Link.arriving, hk.input, hwords]
  outgoing := by
    have hahead : s'.ahead = s.ahead := by rw [ahead, hk.target, hk.down, ahead]
    rw [outgoing_eq, outgoing_eq, hahead, hk.target, hk.down, houtput, hsend]
  opening h := ⟨hop h, hk.input⟩

/-- It goes on with the same bytes of the target and the same bytes to write. -/
theorem KeepsWords.goto (hk : s.Kept s') (houtput : s'.ctx.outputBuffer = s.ctx.outputBuffer)
    (hheld : s'.pc.holds ++ s'.up = s.pc.holds ++ s.up) (hop : s'.pc.opening = s.pc.opening)
    (hsend : s'.pc.toSend = s.pc.toSend) : s.KeepsWords s' :=
  .of_parts hk houtput (by rw [incoming, incoming, hop, hheld]) (by rw [hsend]) (fun h => hop ▸ h)

/-- It goes on and changes nothing else. -/
theorem KeepsWords.turn {pc pc' : Pc} (hpc : s.pc = pc)
    (h : pc'.holds = pc.holds ∧ pc'.opening = pc.opening ∧ pc'.toSend = pc.toSend) : s.KeepsWords { s with pc := pc' } := by
  subst hpc
  exact .goto ⟨rfl, rfl, rfl, rfl, rfl, rfl⟩ rfl (congrArg (· ++ s.up) h.1) h.2.1 h.2.2

/-- It goes on with a message that has no word. -/
theorem KeepsWords.promise {ms : List HostMessage} (hk : s.Kept s') (houtput : s'.ctx.outputBuffer = s.ctx.outputBuffer)
    (hheld : s'.pc.holds ++ s'.up = s.pc.holds ++ s.up) (hop : s'.pc.opening = s.pc.opening)
    (hnone : s.pc.toSend = []) (hmid : Mid s.ahead s'.pc.toSend ms) (hms : ∀ b, .word b ∉ ms) : s.KeepsWords s' :=
  .of_parts hk houtput (by rw [incoming, incoming, hop, hheld])
    (by rw [hmid.ingressWords_eq_nil hms, hnone]; rfl) (fun h => hop ▸ h)

/-- It writes a byte. -/
theorem KeepsWords.push {b : UInt8} {pc : Pc} {credit : Nat} (hsend : s.pc.toSend = b :: pc.toSend)
    (hheld : pc.holds = s.pc.holds) (hop : pc.opening = s.pc.opening) :
    s.KeepsWords { s.push b pc with ctx := { s.ctx with credit := credit } } where
  target := rfl
  arriving := by
    rw [Link.arriving, Link.arriving, incoming, incoming]
    simp only [Link.push, hop, hheld]
  outgoing := by
    rw [Link.outgoing, Link.outgoing, hsend]
    simp [Link.push]
  opening h := ⟨hop ▸ h, rfl⟩

/-- It has dealt with a credit. -/
theorem KeepsWords.credit {first second : UInt8} (hk : s.Kept s') (houtput : s'.ctx.outputBuffer = s.ctx.outputBuffer)
    (hfirst : first ≠ marker) (hinc : s.incoming = marker :: first :: second :: s'.incoming)
    (hsend : s'.pc.toSend = s.pc.toSend) (hop : s'.pc.opening = true → s.pc.opening = true) : s.KeepsWords s' := by
  refine .of_parts hk houtput ?_ (by rw [hsend]) hop
  have hwhole := whole_credit hfirst second
  have hsplit : s.incoming = [marker, first, second] ++ s'.incoming := hinc
  rw [hsplit, hwhole.wordsOf_append, wordsOf_credit hfirst]
  rfl

section Host
variable {n : Nat} {junk : Nat → UInt8}

private theorem debtStep_keeps (h : s.Inv) {got : List UInt8} (hpc : s.pc = .debt got)
    (hs : s.debtStep got = some s') (h' : s'.Inv) : s.KeepsWords s' := by
  have hop : s.pc.opening = true := by rw [hpc]; rfl
  have hsend : s.pc.toSend = [] := by rw [hpc]; rfl
  have hinc : s.incoming = untrashed (got ++ s.up) := by simp [incoming, hpc, Pc.opening, Pc.holds]
  have more (b : UInt8) (up : List UInt8) (hup : s.up = b :: up) :
      s.KeepsWords { s with up := up, pc := .debt (got ++ [b]) } := by
    apply KeepsWords.goto
    · exact ⟨rfl, rfl, rfl, rfl, rfl, rfl⟩
    · rfl
    · simp [hpc, Pc.holds, hup]
    · rw [hop]
      rfl
    · rw [hsend]
      rfl
  have credited (first second : UInt8) (hk : s.Kept s') (houtput : s'.ctx.outputBuffer = s.ctx.outputBuffer)
      (hpc' : s'.pc = .top) (hup : s'.up = s.up) (hinc : s.incoming = marker :: first :: second :: s.up) :
      s.KeepsWords s' := by
    have hfirst : first ≠ marker := (hinc ▸ (h.opening hop).announcing).two.2.1
    have hleft : s.incoming = marker :: first :: second :: s'.incoming := by
      rw [hinc]
      simp [incoming, hpc', Pc.opening, Pc.holds, hup]
    refine .credit hk houtput hfirst hleft ?_ fun _ => hop
    rw [hsend, hpc']
    rfl
  unfold Link.debtStep at hs
  split at hs
  case h_1 d0 d1 d2 =>
    split at hs
    case isTrue hd0 =>
      split at hs
      case h_1 b up hup =>
        cases hs
        exact more b up hup
      case h_2 => cases hs
    case isFalse hd0 =>
      cases hs
      refine credited d1 d2 ⟨rfl, rfl, rfl, rfl, rfl, rfl⟩ rfl rfl rfl ?_
      rw [hinc, Decidable.not_not.mp hd0]
      simp [untrashed]
  case h_2 d0 d1 d2 d3 =>
    have hd0 : d0 ≠ marker := by
      have := h.fits
      rw [hpc] at this
      exact this d0 d1 d2 d3 rfl
    split at hs
    case isTrue hd1 =>
      cases hs
      refine credited d2 d3 ⟨rfl, rfl, rfl, rfl, rfl, rfl⟩ rfl rfl rfl ?_
      rw [hinc, hd1]
      simp [untrashed, hd0]
    case isFalse hd1 =>
      cases hs
      rcases h'.fits with hwhy | hwhy <;> cases hwhy
  case h_3 =>
    split at hs
    case h_1 b up hup =>
      cases hs
      exact more b up hup
    case h_2 => cases hs

private theorem readStep_keeps {avail : Nat} (hpc : s.pc = .read avail) (hs : s.readStep n junk avail = some s')
    (h' : s'.Inv) : s.KeepsWords s' := by
  obtain ⟨hn, hs⟩ := Option.ite_none_right_eq_some.mp hs
  by_cases hn0 : n = 0
  · rw [if_pos hn0] at hs
    cases hs
    exact .turn hpc ⟨rfl, rfl, rfl⟩
  rw [if_neg hn0] at hs
  by_cases hav : avail = 0
  · rw [if_pos hav] at hs
    by_cases hmark : s.up.take n = [marker]
    · rw [if_pos hmark] at hs
      cases hs
      refine .goto ⟨rfl, rfl, rfl, rfl, rfl, rfl⟩ rfl ?_ (by rw [hpc]; rfl) (by rw [hpc]; rfl)
      have hsplit := List.take_append_drop n s.up
      rw [hmark] at hsplit
      rw [hpc]
      exact hsplit
    · rw [if_neg hmark] at hs
      cases hs
      rcases h'.fits with hwhy | hwhy <;> cases hwhy
  · rw [if_neg hav] at hs
    cases hs
    refine .goto ⟨rfl, rfl, rfl, rfl, rfl, rfl⟩ rfl ?_ (by rw [hpc]; rfl) (by rw [hpc]; rfl)
    simp [hpc, Pc.holds, Parse.rest_call]

private theorem fullStep_keeps (h : s.Inv) {got : List UInt8} (hpc : s.pc = .full got)
    (hs : s.fullStep got = some s') : s.KeepsWords s' := by
  have hfits := h.fits
  rw [hpc] at hfits
  obtain ⟨hzero, hlen⟩ := hfits
  unfold Link.fullStep at hs
  split at hs
  case h_1 =>
    split at hs
    case h_1 b up hup =>
      cases hs
      exact .goto ⟨rfl, rfl, rfl, rfl, rfl, rfl⟩ rfl (by simp [hpc, Pc.holds, hup]) (by rw [hpc]; rfl) (by rw [hpc]; rfl)
    case h_2 => cases hs
  case h_2 first got =>
    obtain rfl : got = [] := List.length_eq_zero_iff.mp (by simpa using hlen)
    split at hs
    case h_1 b up hup =>
      cases hs
      have hinc : s.incoming = marker :: first :: b :: up := by simp [incoming, hpc, Pc.opening, Pc.holds, hup]
      -- without credit the target cannot be in the middle of a word
      have hfirst : first ≠ marker := by
        rintro rfl
        have hbal := h.balanced
        rw [hinc] at hbal
        have hword : s.Balanced (wordBytes marker ++ b :: up) := hbal
        have := (hword.drop_word []).1
        omega
      exact .credit ⟨rfl, rfl, rfl, rfl, rfl, rfl⟩ rfl hfirst hinc (by rw [hpc]; rfl)
        (fun hop => absurd hop Bool.false_ne_true)
    case h_2 => cases hs

private theorem parseStep_keeps (h : s.Inv) {p : Parse} (hpc : s.pc = .parse p) (hs : s.parseStep p = some s') :
    s.KeepsWords s' := by
  have hok : p.Ok := by simpa [hpc, Pc.Fits] using h.fits
  unfold Link.parseStep at hs
  cases hop : p.op with
  | finished =>
    have hrest : p.rest = [] := Parse.takes hok hop
    simp only [hop] at hs
    cases hs
    exact .goto ⟨rfl, rfl, rfl, rfl, rfl, rfl⟩ rfl (by simp [hpc, Pc.holds, hrest]) (by rw [hpc]; rfl) (by rw [hpc]; rfl)
  | word b next =>
    obtain ⟨-, -, hrest⟩ := Parse.takes hok hop
    have hinc : s.incoming = wordBytes b ++ (next.rest ++ s.up) := by
      simp [incoming, hpc, Pc.opening, Pc.holds, hrest]
    have hbal := h.balanced
    rw [hinc] at hbal
    have hstore := BackendCtx.storeWord_eq h.backed b (hbal.drop_word []).1
    simp only [hop, hstore] at hs
    cases hs
    refine ⟨rfl, ?_, ?_, fun hop => absurd hop Bool.false_ne_true⟩
    · rw [arriving, arriving, hinc, (whole_word b).wordsOf_append, wordsOf_word]
      simp [incoming, Pc.opening, Pc.holds]
    · rw [outgoing, outgoing, hpc]
      rfl
  | debt first second next =>
    obtain ⟨-, -, hfirst, hrest⟩ := Parse.takes hok hop
    simp only [hop] at hs
    cases hs
    have hinc : s.incoming = marker :: first :: second :: (next.rest ++ s.up) := by
      simp [incoming, hpc, Pc.opening, Pc.holds, hrest]
    exact .credit ⟨rfl, rfl, rfl, rfl, rfl, rfl⟩ rfl hfirst hinc (by rw [hpc]; rfl)
        (fun hop => absurd hop Bool.false_ne_true)
  | read next =>
    obtain ⟨-, hnext⟩ := Parse.takes hok hop
    simp only [hop] at hs
    split at hs
    case h_1 b up hup =>
      cases hs
      refine .goto ⟨rfl, rfl, rfl, rfl, rfl, rfl⟩ rfl ?_ (by rw [hpc]; rfl) (by rw [hpc]; rfl)
      simp [hpc, Pc.holds, (hnext b).2.2, hup]
    case h_2 => cases hs
  | wait next =>
    obtain ⟨-, -, -, -, hrest⟩ := Parse.takes hok hop
    simp only [hop] at hs
    cases hs
    split
    · exact .goto ⟨rfl, rfl, rfl, rfl, rfl, rfl⟩ rfl (by simp [hpc, Pc.holds, hrest]) (by rw [hpc]; rfl) (by rw [hpc]; rfl)
    · exact .turn hpc ⟨rfl, rfl, rfl⟩

/-- The words that are taken out of the buffer are those that are written next. -/
private theorem writeReadStep_keeps (h : s.Inv) {size : Nat} (hpc : s.pc = .writeRead size)
    (hs : s.writeReadStep n size = some s') : s.KeepsWords s' := by
  have hmid : s.ahead.state = .passthrough := by simpa [hpc, Pc.Sends] using h.sends
  unfold Link.writeReadStep at hs
  split at hs
  · cases hs
    refine ⟨rfl, ?_, ?_, fun hop => absurd hop Bool.false_ne_true⟩
    · rw [arriving, arriving, incoming, incoming, hpc]
      rfl
    · have hwords := (Transducer.decodes (P := fun r => r.state = .passthrough) decode_message
        ((s.ctx.outputBuffer.take size).map .word) s.ahead hmid).2
      rw [List.flatMap_map, List.map_map] at hwords
      rw [outgoing_eq, outgoing_eq, hpc]
      change ingressWords (ingressBytes.emitted s.target.ingress s.down) ++
        ingressWords (ingressBytes.emitted s.ahead ((s.ctx.outputBuffer.take size).flatMap wordBytes)) ++
          s.ctx.outputBuffer.drop size = _
      have hemitted : ingressBytes.emitted s.ahead ((s.ctx.outputBuffer.take size).flatMap wordBytes) =
          (s.ctx.outputBuffer.take size).map .word := hwords
      rw [hemitted, ingressWords_words, List.append_assoc, List.take_append_drop]
      simp [Pc.toSend, ingressWords]
  · cases hs
    exact .turn hpc ⟨rfl, rfl, rfl⟩

/-- The host moves words on, but for what `reset` discards. -/
theorem hostStep_keeps (h : s.Inv) (hs : s.hostStep n junk = some s') (hclear : s.pc ≠ .clear) : s.KeepsWords s' := by
  have h' := h.host hs
  have hsends' := h'.sends
  unfold hostStep at hs
  cases hpc : s.pc with
  | release bs =>
    cases bs with
    | nil =>
      simp only [hpc] at hs
      cases hs
      exact .turn hpc ⟨rfl, rfl, rfl⟩
    | cons b bs =>
      simp only [hpc] at hs
      cases hs
      exact .push (by rw [hpc]; rfl) (by rw [hpc]; rfl) (by rw [hpc]; rfl)
  | clear => exact absurd hpc hclear
  | debt got =>
    simp only [hpc] at hs
    exact debtStep_keeps h hpc hs h'
  | top =>
    simp only [hpc] at hs
    cases hs
    by_cases hreset : s.resetRequest
    · simp only [if_pos hreset] at hsends' ⊢
      have hmid : Mid s.ahead (resetLogicBytes 1 ++ resetLogicBytes 0) [.logicReset true, .logicReset false] := hsends'
      exact .promise ⟨rfl, rfl, rfl, rfl, rfl, rfl⟩ rfl (by rw [hpc]; rfl) (by rw [hpc]; rfl) (by rw [hpc]; rfl) hmid
        (by simp)
    · simp only [if_neg hreset]
      exact .turn hpc ⟨rfl, rfl, rfl⟩
  | resetLogic bs =>
    cases bs with
    | nil =>
      simp only [hpc] at hs
      cases hs
      exact .goto ⟨rfl, rfl, rfl, rfl, rfl, rfl⟩ rfl (by rw [hpc]; rfl) (by rw [hpc]; rfl) (by rw [hpc]; rfl)
    | cons b bs =>
      simp only [hpc] at hs
      cases hs
      exact .push (by rw [hpc]; rfl) (by rw [hpc]; rfl) (by rw [hpc]; rfl)
  | term =>
    simp only [hpc] at hs
    cases hs
    split <;> exact .turn hpc ⟨rfl, rfl, rfl⟩
  | readLevel =>
    simp only [hpc] at hs
    cases hs
    exact .turn hpc ⟨rfl, rfl, rfl⟩
  | read avail =>
    simp only [hpc] at hs
    exact readStep_keeps hpc hs h'
  | full got =>
    simp only [hpc] at hs
    exact fullStep_keeps h hpc hs
  | parse p =>
    simp only [hpc] at hs
    exact parseStep_keeps h hpc hs
  | writeLevel =>
    simp only [hpc] at hs
    unfold Link.writeLevelStep at hs
    split at hs
    · cases hs
      exact .turn hpc ⟨rfl, rfl, rfl⟩
    · obtain ⟨-, hs⟩ := Option.ite_none_right_eq_some.mp hs
      cases hs
      split <;> exact .turn hpc ⟨rfl, rfl, rfl⟩
  | writeRead size =>
    simp only [hpc] at hs
    exact writeReadStep_keeps h hpc hs
  | send bs size =>
    cases bs with
    | nil =>
      simp only [hpc] at hs
      cases hs
      exact .goto ⟨rfl, rfl, rfl, rfl, rfl, rfl⟩ rfl (by rw [hpc]; rfl) (by rw [hpc]; rfl) (by rw [hpc]; rfl)
    | cons b bs =>
      simp only [hpc] at hs
      cases hs
      exact .push (by rw [hpc]; rfl) (by rw [hpc]; rfl) (by rw [hpc]; rfl)
  | update =>
    simp only [hpc] at hs
    cases hs
    split <;> exact .turn hpc ⟨rfl, rfl, rfl⟩
  | credit ret =>
    simp only [hpc] at hs
    cases hs
    by_cases hzero : s.ctx.targetCreditAdd = 0
    · simp only [if_pos hzero]
      exact .turn hpc (by cases ret <;> exact ⟨rfl, rfl, rfl⟩)
    · simp only [if_neg hzero] at hsends' ⊢
      obtain ⟨-, t, -, hmid⟩ := hsends'
      refine .promise ⟨rfl, rfl, rfl, rfl, rfl, rfl⟩ rfl ?_ ?_ ?_ hmid (by simp) <;> rw [hpc] <;> cases ret <;> rfl
  | grant ret add bs =>
    simp only [hpc] at hs
    unfold Link.grantStep at hs
    split at hs
    · cases hs
    · cases hs
      refine .push ?_ ?_ ?_ <;> rw [hpc] <;> cases ret <;> rfl
    · cases hs
      refine .push ?_ ?_ ?_ <;> rw [hpc] <;> cases ret <;> rfl
  | stopped why => simp [hpc] at hs

end Host

section Clock
variable {c : Cycle}

def handsOver (s : Link) (c : Cycle) : List UInt8 :=
  if s.target.egress.transfer (s.target.egressIn (s.controlIn c)) then s.fromLogic.take 1 else []

/-- A cycle of the target puts the word that it takes behind the others. -/
theorem clock_arriving (h : s.Inv) (hc : c.Allowed s) :
    (s.clock c).arriving ++ (s.clock c).target.egress.pending =
      s.arriving ++ s.target.egress.pending ++ s.handsOver c := by
  have hinc := incoming_clock (fun hop => (h.opening hop).announcing) hc
  have hbuf : (s.clock c).ctx.inputBuffer = s.ctx.inputBuffer := rfl
  rw [arriving, arriving, hbuf, hinc, List.append_assoc, List.append_assoc, List.append_assoc]
  congr 1
  cases hcom : s.target.comRstHost with
  | true =>
    -- nothing is sent before the target is out of the communication reset
    have he : s.target.egress = .idle := by
      cases hop : s.pc.opening with
      | true => cases (h.opening hop).announcing <;> simp_all
      | false => exact absurd (h.running hop).comRst (by simp [hcom])
    have hsent : s.sentBy c = [] := by
      cases hd : c.done with
      | false => simp [sentBy, hd]
      | true =>
        have henable := hc.done hd
        simp [Control.egressOut, he, EgressState.out] at henable
    have hnext : (s.clock c).target.egress = .idle := (next_comRst ((comRst_eq s c).trans hcom)).1
    rw [hsent, hnext, he, handsOver, he]
    simp [EgressState.transfer, EgressState.out]
  | false =>
    have hbal := h.balanced
    set e := s.target.egressIn (s.controlIn c) with he
    have hin : s.target.egress = .passthrough → e.inValid = true := fun hpass => by
      simpa [he, Control.egressIn, controlIn] using (hbal.pass hpass).2
    have hwords := egress_words (s.target.creditLogic (s.controlIn c)).creditEn hbal.sync hc.done hin
    have hsent : wordsOf (s.incoming ++ s.sentBy c) = wordsOf s.incoming ++
        if e.outDone then words (hostDecoder.emit (hostDecoder.after .start s.incoming) (s.target.egress.out e).outData)
        else [] := by
      have hdone : e.outDone = c.done := rfl
      rw [hdone, sentBy]
      cases c.done with
      | false => simp
      | true =>
        rw [if_pos rfl, if_pos rfl, wordsOf_snoc]
        rfl
    have hover : s.handsOver c = if s.target.egress.transfer e then [e.inData] else [] := by
      rw [handsOver]
      cases ht : s.target.egress.transfer e with
      | false => rfl
      | true =>
        obtain ⟨w, ws, hlogic⟩ := List.exists_cons_of_ne_nil (hbal.pass (transfer_passthrough ht).1).2
        simp [he, Control.egressIn, controlIn, hlogic]
    rw [hsent, clock_egress hcom c, hover, List.append_assoc]
    exact congrArg _ hwords

/-- A cycle takes words off the line, and leaves the others. -/
theorem clock_outgoing (hc : c.Allowed s) :
    ingressWords (s.target.ingressOut (s.controlIn c)).events ++ (s.clock c).outgoing = s.outgoing := by
  obtain ⟨hdown, hahead⟩ := clock_down hc
  rw [outgoing_eq, outgoing_eq, hdown, hahead, ingressWords_append]
  simp only [List.append_assoc]
  rfl

end Clock

/-- The words of the user so far: those that the user logic has handed over and those that the user has read; those that
the user has written since `reset` has cleared the buffer, and those that the target has made of its bytes. -/
structure Words where
  handed : List UInt8
  read : List UInt8
  written : List UInt8
  received : List UInt8
  deriving DecidableEq

def Words.none : Words := ⟨[], [], [], []⟩

def Words.after (w : Words) (s : Link) : Move → Words
  | .host _ _ => match s.pc with
    | .clear => { w with written := [] }
    | _ => w
  | .userRead n => { w with read := w.read ++ s.ctx.inputBuffer.take n }
  | .userWrite data => { w with written := w.written ++ data }
  | .clock c => { w with
      handed := w.handed ++ s.handsOver c
      received := w.received ++ ingressWords (s.target.ingressOut (s.controlIn c)).events }
  | _ => w

def traced : Guarded (Link × Words) Move where
  step p m := (p.1.move m).map fun s' => (s', p.2.after p.1 m)

/-- The words so far are those that have arrived and those on their way. -/
structure Delivers (s : Link) (w : Words) : Prop where
  inv : s.Inv
  toHost : w.handed = w.read ++ s.arriving ++ s.target.egress.pending
  toTarget : w.written = w.received ++ s.outgoing
  opening : s.pc.opening = true → s.ctx.inputBuffer = [] ∧ w.received = []

/-- No word is on its way to the target while `reset` is under way. -/
theorem Opening.no_words (h : s.Opening) : ingressWords (ingressBytes.emitted s.target.ingress (s.down ++ s.pc.toSend)) = [] := by
  obtain ⟨vals, hvals⟩ := h.events
  rw [hvals]
  apply ingressWords_eq_nil
  intro b hb
  cases s.target.comRstHost <;> simp at hb

theorem Delivers.start (h : s.Start) : Delivers s .none := by
  have hinv : s.Inv := .start h
  have hop : s.pc.opening = true := by rw [h.pc]; rfl
  have hinc : s.incoming = [] := by
    cases (hinv.opening hop).announcing with
    | held _ _ _ _ _ hinc => exact hinc
    | released hcom | asking hcom | first hcom | second hcom | begun _ _ hcom => exact absurd h.target.comRst (by simp [hcom])
  constructor
  case inv => exact hinv
  case toHost =>
    simp only [Words.none]
    rw [arriving, hinc, h.ctx, h.target.egress]
    rfl
  case toTarget =>
    simp only [Words.none]
    rw [outgoing, (hinv.opening hop).no_words, h.ctx]
    rfl
  case opening => exact fun _ => ⟨by rw [h.ctx], rfl⟩

variable {w : Words}

/-- What `reset` discards had not been told to the target. -/
private theorem Delivers.clear {n : Nat} {junk : Nat → UInt8} (h : Delivers s w) (hpc : s.pc = .clear)
    (hs : s.hostStep n junk = some s') : Delivers s' (w.after s (.host n junk)) := by
  have hinv' := h.inv.host hs
  have hop : s.pc.opening = true := by rw [hpc]; rfl
  obtain ⟨hinput, hreceived⟩ := h.opening hop
  have hafter : w.after s (.host n junk) = { w with written := [] } := by simp only [Words.after, hpc]
  rw [hafter]
  simp only [hostStep, hpc, BackendCtx.clear, cbufDiscardAll_eq, Option.bind_eq_bind, Option.bind_some, Option.pure_def,
    Option.map_some, Option.some_inj] at hs
  subst hs
  constructor
  case inv => exact hinv'
  case toHost =>
    have harriving := h.toHost
    rw [arriving, incoming, hinput, hpc] at harriving
    exact harriving
  case toTarget =>
    have hnone := (h.inv.opening hop).no_words
    rw [hpc] at hnone
    rw [outgoing]
    dsimp only at hreceived ⊢
    rw [hreceived]
    simpa [Pc.toSend] using hnone.symm
  case opening => exact fun _ => ⟨rfl, hreceived⟩

theorem Delivers.host {n : Nat} {junk : Nat → UInt8} (h : Delivers s w) (hs : s.hostStep n junk = some s') :
    Delivers s' (w.after s (.host n junk)) := by
  by_cases hpc : s.pc = .clear
  · exact h.clear hpc hs
  have hkeeps := hostStep_keeps h.inv hs hpc
  have hafter : w.after s (.host n junk) = w := by
    cases hcase : s.pc <;> first | exact absurd hcase hpc | simp only [Words.after, hcase]
  rw [hafter]
  constructor
  case inv => exact h.inv.host hs
  case toHost =>
    rw [hkeeps.arriving, hkeeps.target]
    exact h.toHost
  case toTarget =>
    rw [hkeeps.outgoing]
    exact h.toTarget
  case opening =>
    intro hop
    obtain ⟨hbefore, hinput⟩ := hkeeps.opening hop
    rw [hinput]
    exact h.opening hbefore

theorem Delivers.clock {c : Cycle} (h : Delivers s w) (hc : c.Allowed s) :
    Delivers (s.clock c) (w.after s (.clock c)) := by
  constructor
  case inv => exact h.inv.clock hc
  case toHost =>
    simp only [Words.after]
    rw [h.toHost, List.append_assoc, List.append_assoc, List.append_assoc w.read, clock_arriving h.inv hc,
      List.append_assoc]
  case toTarget =>
    simp only [Words.after]
    rw [h.toTarget, ← clock_outgoing hc, List.append_assoc]
  case opening =>
    intro hop
    have hop : s.pc.opening = true := hop
    obtain ⟨hinput, hreceived⟩ := h.opening hop
    refine ⟨hinput, ?_⟩
    have hnone := (h.inv.opening hop).no_words
    rw [Transducer.emitted_append, (clock_down hc).1, ingressWords_append, ingressWords_append] at hnone
    have hevents := (List.append_eq_nil_iff.mp (List.append_eq_nil_iff.mp hnone).1).1
    simp only [Words.after]
    rw [hevents, List.append_nil]
    exact hreceived

theorem Delivers.step {m : Move} (h : Delivers s w) (hmove : s.move m = some s') : Delivers s' (w.after s m) := by
  have hinv' := h.inv.step (step_iff_move.mpr ⟨m, hmove⟩)
  cases m with
  | host n junk => exact h.host hmove
  | userRead n =>
    obtain ⟨hn, hmove⟩ := Option.ite_none_right_eq_some.mp hmove
    cases hmove
    refine ⟨hinv', ?_, h.toTarget, fun hop => ?_⟩
    · have hsplit : s.ctx.inputBuffer.take n ++ (s.ctx.inputBuffer.drop n ++ wordsOf s.incoming) = s.arriving := by
        rw [← List.append_assoc, List.take_append_drop, arriving]
      simp only [Words.after]
      rw [h.toHost, ← hsplit, ← List.append_assoc w.read]
      rfl
    · obtain ⟨hinput, hreceived⟩ := h.opening hop
      exact ⟨by simp [hinput], hreceived⟩
  | userWrite data =>
    obtain ⟨hdata, hmove⟩ := Option.ite_none_right_eq_some.mp hmove
    cases hmove
    refine ⟨hinv', h.toHost, ?_, h.opening⟩
    simp only [Words.after]
    rw [h.toTarget, outgoing, outgoing]
    simp only [List.append_assoc]
  | userReset =>
    cases hmove
    exact ⟨hinv', h.toHost, h.toTarget, h.opening⟩
  | userClose =>
    cases hmove
    exact ⟨hinv', h.toHost, h.toTarget, h.opening⟩
  | logic word =>
    cases hmove
    exact ⟨hinv', h.toHost, h.toTarget, h.opening⟩
  | clock c =>
    obtain ⟨hc, hmove⟩ := Option.ite_none_right_eq_some.mp hmove
    cases hmove
    exact h.clock hc

/-- In every run of a session, whatever the order of the steps of the user, of the host's thread, of the lines and of the
target: the words that the user logic has handed over are those that the user has read, and behind them those in the
buffer, those in the bytes that the host has not dealt with, and one whose second byte is still to be sent. The words
that the user has written are those that the target has received, and behind them those on the line, those that the
host is writing and those in the buffer. -/
theorem words_delivered {s₀ : Link} (hstart : s₀.Start) {moves : List Move} {s : Link} {w : Words}
    (hrun : traced.run (s₀, .none) moves = some (s, w)) :
    w.handed = w.read ++ s.ctx.inputBuffer ++ wordsOf s.incoming ++ s.target.egress.pending ∧
      w.written = w.received ++ ingressWords (ingressBytes.emitted s.target.ingress (s.down ++ s.pc.toSend)) ++
        s.ctx.outputBuffer := by
  have h : Delivers s w := by
    refine Guarded.run_invariant (m := traced) (P := fun p => Delivers p.1 p.2) ?_ (.start hstart) hrun
    rintro ⟨s, w⟩ m p' h hs
    obtain ⟨s', hmove, rfl⟩ := Option.map_eq_some_iff.mp hs
    exact h.step hmove
  refine ⟨?_, ?_⟩
  · have hhost := h.toHost
    rwa [arriving, ← List.append_assoc] at hhost
  · have htarget := h.toTarget
    rwa [outgoing, ← List.append_assoc] at htarget

/-- The run in which a word has come to the user in each direction, and another one is on its way to the host. -/
theorem delivers_run : (traced.run (begun, .none) (carries ++ [.userRead 1])).isSome := by decide +kernel

theorem words_delivered_write :
    let p := (traced.run (begun, .none) (carries ++ [.userRead 1])).get delivers_run
    p.2 = ⟨[0x41, 0x42], [0x41], [0x55], [0x55]⟩ ∧
      p.2.handed = p.2.read ++ p.1.ctx.inputBuffer ++ wordsOf p.1.incoming ++ p.1.target.egress.pending ∧
      p.2.written = p.2.received ++ ingressWords (ingressBytes.emitted p.1.target.ingress (p.1.down ++ p.1.pc.toSend)) ++
        p.1.ctx.outputBuffer := by
  intro p
  exact ⟨by decide +kernel, words_delivered begun_start (Option.some_get delivers_run).symm⟩

end Link
end Glip.Uart
