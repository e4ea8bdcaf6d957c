import Glip.Uart.FilledBuffer

/-! When a credit of the target can reach the host whatever the user does: the wait for credit in the host and
the second byte of a marker word in the target. -/
namespace Glip.Uart
open Foundation
namespace Link

/-- The host is in the wait loop of `parse_buffer`, and has no credit to give. -/
def HostStuck (s : Link) : Prop :=
  (∃ p, s.pc = .credit (.wait p)) ∧ s.ctx.credit < 2 ∧ cbufFreeLevel s.ctx.inputBuffer - s.ctx.credit = 0

/-- The target has sent the first byte of a marker word and has no credit for the second one; none is on its way, and
the host has none to give. -/
def TargetStuck (s : Link) : Prop :=
  s.target.egress = .passthroughRepeat ∧ owing s.target.debtor = false ∧ s.inFlight = 0 ∧
    cbufFreeLevel s.ctx.inputBuffer - s.ctx.credit = 0

structure Supplied (s : Link) : Prop where
  waits : ∀ p, s.pc = .credit (.wait p) → 2 ≤ cbufFreeLevel s.ctx.inputBuffer
  begun : s.target.egress = .passthroughRepeat →
    s.ctx.credit < s.target.debtor + s.inFlight + cbufFreeLevel s.ctx.inputBuffer

structure Gives (s s' : Link) : Prop where
  target : s'.target = s.target
  credit : s'.ctx.credit + s.inFlight + cbufFreeLevel s.ctx.inputBuffer ≤
    s.ctx.credit + s'.inFlight + cbufFreeLevel s'.ctx.inputBuffer
  waits : ∀ p, s'.pc = .credit (.wait p) → (∃ q, s.pc = .parse q) ∧ s'.ctx = s.ctx

section Host
variable {s s' : Link} {n : Nat} {junk : Nat → UInt8}

/-- The host goes on with the same lines and the same credit. -/
private theorem Gives.goto (htarget : s'.target = s.target) (hdown : s'.down = s.down)
    (hcredit : s'.ctx.credit = s.ctx.credit) (hinput : s'.ctx.inputBuffer = s.ctx.inputBuffer)
    (hpc : ∀ p, s'.pc ≠ .credit (.wait p)) : Gives s s' := by
  refine ⟨htarget, ?_, fun p hp => absurd hp (hpc p)⟩
  rw [inFlight, inFlight, htarget, hdown, hcredit, hinput]

private theorem Gives.push (b : UInt8) (pc : Pc) (hpc : ∀ p, pc ≠ .credit (.wait p)) : Gives s (s.push b pc) := by
  refine ⟨rfl, ?_, fun p hp => absurd hp (hpc p)⟩
  have hle : s.inFlight ≤ (s.push b pc).inFlight := by
    rw [inFlight, inFlight, show (s.push b pc).target = s.target from rfl, emitted_push, granted_append]
    exact Nat.le_add_right _ _
  have hctx : (s.push b pc).ctx = s.ctx := rfl
  rw [hctx]
  omega

private theorem Gives.debtStep {got : List UInt8} (hs : s.debtStep got = some s') : Gives s s' := by
  unfold Link.debtStep at hs
  split at hs
  · split at hs
    · split at hs
      · cases hs
        exact .goto rfl rfl rfl rfl nofun
      · cases hs
    · cases hs
      exact .goto rfl rfl rfl rfl nofun
  · split at hs <;> cases hs <;> exact .goto rfl rfl rfl rfl nofun
  · split at hs
    · cases hs
      exact .goto rfl rfl rfl rfl nofun
    · cases hs

private theorem Gives.readStep {avail : Nat} (hs : s.readStep n junk avail = some s') : Gives s s' := by
  obtain ⟨-, hs⟩ := Option.ite_none_right_eq_some.mp hs
  split at hs
  · cases hs
    exact .goto rfl rfl rfl rfl nofun
  · split at hs
    · cases hs
      refine .goto rfl rfl rfl rfl fun p => ?_
      dsimp only
      split <;> nofun
    · cases hs
      exact .goto rfl rfl rfl rfl nofun

private theorem Gives.fullStep {got : List UInt8} (hs : s.fullStep got = some s') : Gives s s' := by
  unfold Link.fullStep at hs
  split at hs <;> split at hs <;> cases hs <;> exact .goto rfl rfl rfl rfl nofun

/-- A word that is stored takes the room that its credit was given for. -/
private theorem Gives.storeWord (h : s.Inv) {b : UInt8} {ctx : BackendCtx} {next : Parse}
    (hctx : s.ctx.storeWord b = some ctx) : Gives s { s with ctx := ctx, pc := .parse next } := by
  have hc : 0 < s.ctx.credit := by
    by_contra hzero
    rw [BackendCtx.storeWord, if_neg hzero] at hctx
    cases hctx
  rw [BackendCtx.storeWord_eq h.backed b hc] at hctx
  cases hctx
  refine ⟨rfl, ?_, by simp⟩
  have hle := h.backed.credit_le
  have hflight : ({ s with ctx := { s.ctx with inputBuffer := s.ctx.inputBuffer ++ [b], credit := s.ctx.credit - 1 }
                           pc := .parse next } : Link).inFlight = s.inFlight := rfl
  rw [hflight]
  dsimp only
  rw [cbufFreeLevel] at hle
  rw [cbufFreeLevel, cbufFreeLevel, List.length_append, List.length_singleton]
  omega

private theorem Gives.parseStep (h : s.Inv) {p : Parse} (hpc : s.pc = .parse p) (hs : s.parseStep p = some s') :
    Gives s s' := by
  unfold Link.parseStep at hs
  split at hs
  case h_1 =>
    cases hs
    exact .goto rfl rfl rfl rfl nofun
  case h_2 b next hop =>
    split at hs
    case h_1 ctx hctx =>
      cases hs
      exact .storeWord h hctx
    case h_2 =>
      cases hs
      exact .goto rfl rfl rfl rfl nofun
  case h_3 first second next hop =>
    cases hs
    exact .goto rfl rfl rfl rfl nofun
  case h_4 next hop =>
    split at hs
    · cases hs
      exact .goto rfl rfl rfl rfl nofun
    · cases hs
  case h_5 next hop =>
    cases hs
    exact ⟨rfl, Nat.le_refl _, fun _ _ => ⟨⟨p, hpc⟩, rfl⟩⟩

private theorem Gives.writeLevelStep (hs : s.writeLevelStep n = some s') : Gives s s' := by
  unfold Link.writeLevelStep at hs
  split at hs
  · cases hs
    exact .goto rfl rfl rfl rfl nofun
  · obtain ⟨-, hs⟩ := Option.ite_none_right_eq_some.mp hs
    cases hs
    refine .goto rfl rfl rfl rfl fun p => ?_
    dsimp only
    split <;> nofun

private theorem Gives.writeReadStep {size : Nat} (hs : s.writeReadStep n size = some s') : Gives s s' := by
  unfold Link.writeReadStep at hs
  split at hs <;> cases hs <;> exact .goto rfl rfl rfl rfl nofun

/-- The last byte of a credit brings it on its way. -/
private theorem Gives.grantStep (h : s.Inv) {ret : Caller} {add : Nat} {bs : List UInt8}
    (hpc : s.pc = .grant ret add bs) (hs : s.grantStep ret add bs = some s') : Gives s s' := by
  match bs with
  | [] => cases hs
  | b :: b' :: bs =>
    cases hs
    exact .push b _ nofun
  | [b] =>
    cases hs
    have hsends := h.sends
    rw [hpc] at hsends
    obtain ⟨-, t, ht, hmid⟩ := hsends
    refine ⟨rfl, ?_, fun p hp => absurd hp (Pc.ne_wait (Caller.not_waits ret) p)⟩
    have hflight : (s.push b ret.pc).inFlight = s.inFlight + add := by
      rw [inFlight, inFlight, show (s.push b ret.pc).target = s.target from rfl, emitted_push, granted_append,
        hmid.credit_last, ← ht]
      rfl
    have hsize : sizeAdd s.ctx.credit add ≤ s.ctx.credit + add := by
      rw [sizeAdd_eq_mod]
      exact Nat.mod_le _ _
    have hsame : ({ s.push b ret.pc with ctx := { s.ctx with credit := sizeAdd s.ctx.credit add } } : Link).inFlight =
        (s.push b ret.pc).inFlight := rfl
    rw [hsame, hflight]
    dsimp only
    omega

theorem Gives.host (h : s.Inv) (hs : s.hostStep n junk = some s') : Gives s s' := by
  unfold Link.hostStep at hs
  cases hpc : s.pc <;> rw [hpc] at hs <;> dsimp only at hs
  case release bs =>
    cases bs <;> cases hs
    · exact .goto rfl rfl rfl rfl (by simp)
    · exact .push _ _ (by simp)
  case clear =>
    obtain ⟨ctx, hclear, hs⟩ := Option.map_eq_some_iff.mp hs
    rw [BackendCtx.clear, cbufDiscardAll_eq, cbufDiscardAll_eq] at hclear
    cases hclear
    cases hs
    refine ⟨rfl, ?_, by simp⟩
    have hfree : cbufFreeLevel s.ctx.inputBuffer ≤ cbufFreeLevel [] := BackendCtx.freeLevel_le s.ctx.inputBuffer
    have hflight : ({ s with ctx := { s.ctx with inputBuffer := [], outputBuffer := [], debt := 0 }
                             pc := .credit .reset } : Link).inFlight = s.inFlight := rfl
    rw [hflight]
    dsimp only
    omega
  case debt got => exact .debtStep hs
  case top =>
    cases hs
    refine .goto rfl rfl rfl rfl fun p => ?_
    dsimp only
    split <;> simp
  case resetLogic bs =>
    cases bs <;> cases hs
    · exact .goto rfl rfl rfl rfl (by simp)
    · exact .push _ _ (by simp)
  case term =>
    cases hs
    refine .goto rfl rfl rfl rfl fun p => ?_
    dsimp only
    split <;> simp
  case readLevel =>
    cases hs
    exact .goto rfl rfl rfl rfl (by simp)
  case read avail => exact .readStep hs
  case full got => exact .fullStep hs
  case parse p => exact .parseStep h hpc hs
  case writeLevel => exact .writeLevelStep hs
  case writeRead size => exact .writeReadStep hs
  case send bs size =>
    cases bs <;> cases hs
    · exact .goto rfl rfl rfl rfl (by simp)
    · exact .push _ _ (by simp)
  case update =>
    cases hs
    refine .goto rfl rfl rfl rfl fun p => ?_
    dsimp only
    split <;> simp
  case credit ret =>
    cases hs
    refine .goto rfl rfl rfl rfl fun p => ?_
    dsimp only
    split
    · exact Pc.ne_wait (Caller.not_waits ret) p
    · simp
  case grant ret add bs => exact .grantStep h hpc hs
  case stopped why => cases hs

end Host

section Runs
variable {s s' : Link}

/-- A target that comes to the second byte of a marker word, or stays at it. -/
theorem repeats_cases {e : EgressState} {i : EgressIn} {creditEn : Bool} (h : e.nxt i creditEn = .passthroughRepeat) :
    e = .passthroughRepeat ∧ i.outDone = false ∨ e = .passthrough ∧ i.outDone = true ∧ i.inData = marker := by
  cases e <;> simp only [EgressState.nxt] at h
  case idle => split_ifs at h
  case passthrough =>
    split_ifs at h with hdone hdata
    exact .inr ⟨rfl, hdone, hdata⟩
  case passthroughRepeat =>
    split_ifs at h with hdone
    exact .inl ⟨rfl, Bool.not_eq_true _ ▸ hdone⟩
  all_goals split_ifs at h

/-- What the debtor has and what is on its way to it, at the second byte of a marker word. -/
theorem clock_repeats {c : Cycle} (h : s.Inv) (hc : c.Allowed s) (he : (s.clock c).target.egress = .passthroughRepeat) :
    s.target.egress = .passthroughRepeat ∧
        (s.clock c).target.debtor + (s.clock c).inFlight = s.target.debtor + s.inFlight ∨
      s.target.egress = .passthrough ∧
        (s.clock c).target.debtor + (s.clock c).inFlight + 1 = s.target.debtor + s.inFlight := by
  have hsum := h.balanced.sum
  have hsum' := (h.clock hc).balanced.sum
  have hctx : (s.clock c).ctx = s.ctx := rfl
  rw [hctx, he, incoming_clock (fun hop => (h.opening hop).announcing) hc] at hsum'
  have hnxt : s.target.egress.nxt (s.target.egressIn (s.controlIn c)) (s.target.creditLogic (s.controlIn c)).creditEn =
      .passthroughRepeat := by
    rw [clock_target, Control.next] at he
    dsimp only at he
    split_ifs at he
    exact he
  rcases repeats_cases hnxt with ⟨hrepeat, hdone⟩ | ⟨hpass, hdone, hdata⟩
  · left
    have hnone : s.sentBy c = [] := by
      have hdone : c.done = false := hdone
      rw [sentBy, hdone]
      rfl
    rw [hnone, List.append_nil] at hsum'
    rw [hrepeat] at hsum
    exact ⟨hrepeat, by omega⟩
  · right
    have hsent : s.sentBy c = [marker] := by
      have hdone : c.done = true := hdone
      rw [sentBy, if_pos hdone, Control.egressOut, hpass]
      exact congrArg (fun b => [b]) hdata
    have hsync := h.balanced.sync
    rw [hpass] at hsync
    have hstart : hostDecoder.after .start s.incoming = .start := by
      cases hf : hostDecoder.after .start s.incoming <;> rw [hf] at hsync
      case marked => exact hsync.elim
      case low first => exact hsync.elim
    have hwords : wordsOf (s.incoming ++ [marker]) = wordsOf s.incoming := by
      rw [wordsOf_snoc, hstart]
      exact List.append_nil _
    rw [hsent, hwords] at hsum'
    rw [hpass] at hsum
    have hhalf : EgressState.halfSent .passthroughRepeat = 1 := rfl
    have hwhole : EgressState.halfSent .passthrough = 0 := rfl
    exact ⟨hpass, by omega⟩

theorem Supplied.clock {c : Cycle} (hinv : s.Inv) (h : s.Supplied) (hc : c.Allowed s) (ht : InTime s (s.clock c)) :
    (s.clock c).Supplied := by
  have hctx : (s.clock c).ctx = s.ctx := rfl
  refine ⟨h.waits, fun he => ?_⟩
  rw [hctx]
  have hle := hinv.backed.credit_le
  rcases clock_repeats hinv hc he with ⟨hrepeat, hsum⟩ | ⟨hpass, hsum⟩
  · have hbegun := h.begun hrepeat
    omega
  · have hroom := ht.begins hpass he
    have hcredit := hinv.balanced.sum
    have hwhole : EgressState.halfSent .passthrough = 0 := rfl
    rw [hpass, hwhole] at hcredit
    omega

theorem Supplied.step (hinv : s.Inv) (h : s.Supplied) (hstep : Step s s') (ht : InTime s s') : s'.Supplied := by
  cases hstep with
  | host _ n junk hs =>
    have hgives := Gives.host hinv hs
    constructor
    · intro p hp
      obtain ⟨⟨q, hq⟩, hctx⟩ := hgives.waits p hp
      rw [hctx]
      exact ht.waits q p hq hp
    · intro he
      have hcredit := hgives.credit
      rw [hgives.target] at he
      have hbegun := h.begun he
      rw [hgives.target]
      omega
  | userRead n hn =>
    have hfree : cbufFreeLevel s.ctx.inputBuffer ≤ cbufFreeLevel (s.ctx.inputBuffer.drop n) := by
      rw [cbufFreeLevel, cbufFreeLevel, List.length_drop]
      omega
    exact ⟨fun p hp => Nat.le_trans (h.waits p hp) hfree,
      fun he => Nat.lt_of_lt_of_le (h.begun he) (Nat.add_le_add_left hfree _)⟩
  | userWrite data hdata => exact ⟨h.waits, h.begun⟩
  | userReset => exact ⟨h.waits, h.begun⟩
  | userClose => exact ⟨h.waits, h.begun⟩
  | logic word => exact ⟨h.waits, h.begun⟩
  | clock c hc => exact h.clock hinv hc ht

theorem Start.supplied (h : s.Start) : s.Supplied := by
  constructor
  · intro p hp
    rw [h.pc] at hp
    cases hp
  · intro he
    rw [h.target.egress] at he
    cases he

theorem ReachableInTime.supplied (h : s.ReachableInTime) : s.Inv ∧ s.Supplied := by
  obtain ⟨s₀, hstart, hsteps⟩ := h
  induction hsteps with
  | refl => exact ⟨.start hstart, hstart.supplied⟩
  | tail _ hstep ih => exact ⟨ih.1.step hstep.1, ih.2.step ih.1 hstep.1 hstep.2⟩

structure Blocked (s : Link) : Prop where
  waits : ∃ p next, p.op = .wait next ∧ (s.pc = .parse p ∨ s.pc = .credit (.wait p))
  credit : s.ctx.credit < 2
  full : cbufFreeLevel s.ctx.inputBuffer - s.ctx.credit = 0

/-- A host that is blocked goes round and round, and takes in no credit of the target. -/
theorem Blocked.host {n : Nat} {junk : Nat → UInt8} (h : s.Blocked) (hinv : s.Inv)
    (hs : s.hostStep n junk = some s') : s'.Blocked ∧ s'.ctx = s.ctx := by
  obtain ⟨⟨p, next, hop, hpc | hpc⟩, hcredit, hfull⟩ := h
  · rw [hostStep, hpc] at hs
    dsimp only at hs
    rw [parseStep, hop] at hs
    dsimp only at hs
    rw [if_neg (Nat.not_le.mpr hcredit)] at hs
    cases hs
    exact ⟨⟨⟨p, next, hop, .inr rfl⟩, hcredit, hfull⟩, rfl⟩
  · have hadd := BackendCtx.targetCreditAdd_eq hinv.backed
    rw [hfull, Nat.zero_min] at hadd
    rw [hostStep, hpc] at hs
    dsimp only at hs
    rw [if_pos hadd] at hs
    cases hs
    exact ⟨⟨⟨p, next, hop, .inl rfl⟩, hcredit, hfull⟩, rfl⟩

theorem Blocked.step (h : s.Blocked) (hinv : s.Inv) (hs : Step s s')
    (hkept : s'.ctx.inputBuffer = s.ctx.inputBuffer) : s'.Blocked ∧ s'.ctx.debt = s.ctx.debt := by
  cases hs with
  | host _ n junk hs =>
    obtain ⟨hblocked, hctx⟩ := h.host hinv hs
    exact ⟨hblocked, by rw [hctx]⟩
  | userRead n hn =>
    refine ⟨⟨h.waits, h.credit, ?_⟩, rfl⟩
    rw [hkept]
    exact h.full
  | userWrite data hdata => exact ⟨⟨h.waits, h.credit, h.full⟩, rfl⟩
  | userReset => exact ⟨⟨h.waits, h.credit, h.full⟩, rfl⟩
  | userClose => exact ⟨⟨h.waits, h.credit, h.full⟩, rfl⟩
  | logic word => exact ⟨⟨h.waits, h.credit, h.full⟩, rfl⟩
  | clock c hc => exact ⟨⟨h.waits, h.credit, h.full⟩, rfl⟩

/-- As long as the user does not read, no credit of the target is delivered. -/
theorem Blocked.run (h : s.Blocked) (hinv : s.Inv)
    (hsteps : Relation.ReflTransGen (fun a b => Step a b ∧ b.ctx.inputBuffer = a.ctx.inputBuffer) s s') :
    s'.Blocked ∧ s'.Inv ∧ s'.ctx.debt = s.ctx.debt := by
  induction hsteps with
  | refl => exact ⟨h, hinv, rfl⟩
  | tail _ hstep ih =>
    obtain ⟨hblocked, hinv', hdebt⟩ := ih
    obtain ⟨hblocked', hdebt'⟩ := hblocked.step hinv' hstep.1 hstep.2
    exact ⟨hblocked', hinv'.step hstep.1, hdebt'.trans hdebt⟩

/-- In every run whose steps are in time neither side ever waits for the user. -/
theorem credit_delivery (s : Link) (h : s.ReachableInTime) : ¬ s.HostStuck ∧ ¬ s.TargetStuck := by
  obtain ⟨hinv, hsupplied⟩ := h.supplied
  have hle := hinv.backed.credit_le
  constructor
  · rintro ⟨⟨p, hp⟩, hcredit, hnone⟩
    have hroom := hsupplied.waits p hp
    omega
  · rintro ⟨he, howing, hflight, hnone⟩
    have hbegun := hsupplied.begun he
    have hdebtor : s.target.debtor = 0 := bne_eq_false_iff_eq.mp howing
    omega

/-- All but one byte of the input buffer is full, and the host has given its last credit; then the user reads a byte.
The target begins a marker word, and the host waits for credit for the second byte of it, with one byte to spare. -/
theorem waits_with_room : ∃ s : Link, s.ReachableInTime ∧ (∃ p, s.pc = .credit (.wait p)) ∧ s.ctx.credit = 1 ∧
    s.target.egress = .passthroughRepeat := by
  obtain ⟨ctx, t, hreach, hidle, hlen, hpos⟩ := fills 32767 (by decide)
  have hinv := hreach.reachable.inv
  have hle : ctx.credit ≤ cbufFreeLevel ctx.inputBuffer := hinv.backed.credit_le
  have hone : ctx.credit = 1 := by
    rw [cbufFreeLevel, hlen, uartBufSize_eq] at hle
    omega
  set ctx' : BackendCtx := { ctx with inputBuffer := ctx.inputBuffer.drop 1 }
  have hroom : cbufFreeLevel ctx'.inputBuffer = 2 := by
    rw [cbufFreeLevel, List.length_drop, hlen]
    rfl
  have hread : TimelyStep (session .top ctx [] [] t []) (session .top ctx' [] [] t []) :=
    ⟨.userRead _ 1 (by change 1 ≤ ctx.inputBuffer.length; omega), .still rfl fun hrepeat => by
      cases hidle.egress.symm.trans hrepeat⟩
  have hlogic := logic_step .top ctx' [] [] t marker (by rw [hidle.egress]; decide)
  obtain ⟨t', hword, -, -, he', -⟩ := clock_word .top ctx' [] [] (w := marker) hidle.serving hidle.egress
    (by rw [hidle.debtor]; exact hpos) (by rw [hidle.debtor]; exact hinv.capped) (fun _ => Nat.le_of_eq hroom.symm)
  obtain ⟨p, next, hreads, hwaits, -⟩ := host_waits (t := t') ctx' (by omega) (by change ctx.credit < 2; omega)
  have htimely : TimelyStep (session (.parse p) ctx' [] [] t' []) (session (.credit (.wait p)) ctx' [] [] t' []) :=
    ⟨hwaits, fun _ _ _ _ => Nat.le_of_eq hroom.symm, fun hpass hrepeat => by cases hpass.symm.trans hrepeat⟩
  obtain ⟨s₀, hstart, hbefore⟩ := hreach
  have hsteps := Relation.ReflTransGen.trans hbefore
    (.tail (.trans (.trans (.tail (.single hread) hlogic) hword) hreads) htimely)
  exact ⟨_, ⟨s₀, hstart, hsteps⟩, ⟨p, rfl⟩, hone, he'⟩

theorem credit_delivery_begun : ∃ s : Link, (∃ p, s.pc = .credit (.wait p)) ∧ s.ctx.credit = 1 ∧
    s.target.egress = .passthroughRepeat ∧ ¬ s.HostStuck ∧ ¬ s.TargetStuck := by
  obtain ⟨s, hreach, hwait, hcredit, hrepeat⟩ := waits_with_room
  exact ⟨s, hwait, hcredit, hrepeat, credit_delivery s hreach⟩

/-- A run in which the user does not read comes to a state in which both sides wait, and from which no credit of the
target is delivered until the user reads. -/
theorem credit_delivery_blocked :
    ∃ s : Link, s.Reachable ∧ s.HostStuck ∧ s.TargetStuck ∧
      ∀ s', Relation.ReflTransGen (fun a b => Step a b ∧ b.ctx.inputBuffer = a.ctx.inputBuffer) s s' →
        s'.ctx.debt = s.ctx.debt := by
  obtain ⟨s, hreach, ⟨p, next, hpc, hop⟩, hcredit, hfull, he, hdebtor, hdown⟩ := fills_up
  refine ⟨s, hreach, ⟨⟨p, hpc⟩, hcredit, hfull⟩, ⟨he, ?_, ?_, hfull⟩, fun s' hsteps => ?_⟩
  · rw [hdebtor]
    rfl
  · rw [inFlight, hdown]
    rfl
  · have hblocked : s.Blocked := ⟨⟨p, next, hop, .inr hpc⟩, hcredit, hfull⟩
    exact (hblocked.run hreach.inv hsteps).2.2

end Runs
end Link
end Glip.Uart
