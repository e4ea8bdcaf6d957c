import Glip.Uart.EgressCredit

/-! A session in which the user does not read: the input buffer fills up, word by word, until the host has no credit
left to give. -/
namespace Glip.Uart
open Foundation

structure Control.Serving (t : Control) : Prop where
  creditor : t.creditor.resources = 0
  transferCounter : t.transferCounter ≠ 0
  sendCreditPnd : t.sendCreditPnd = false
  getCredit : t.getCredit = false
  comRst : t.comRstHost = false

section Target
variable {t : Control} {i : ControlIn}

/-- A cycle in which the host gives credit at most. -/
theorem Control.Serving.next (h : t.Serving) (hrst : i.rst = false) (hin : i.transferIn = false)
    (hevents : ∀ e ∈ (t.ingressOut i).events, ∃ val, e = .credit val)
    (hpos : t.egress.transfer (t.egressIn i) = true → 0 < t.debtor)
    (hlt : t.debtor + granted (t.ingressOut i).events < 2 ^ 15) :
    (t.next i).Serving ∧ (t.next i).egress = t.egress.nxt (t.egressIn i) false ∧
      (t.next i).debtor = t.debtor + granted (t.ingressOut i).events -
        (if t.egress.transfer (t.egressIn i) then 1 else 0) ∧
      (t.ingressOut i).outValid = false := by
  rw [granted_events] at hlt ⊢
  have hcom : (t.ingressOut i).comRstEn = false := by
    refine Bool.eq_false_iff.mpr fun hen => ?_
    obtain ⟨val, hval⟩ := hevents _ (mem_comReset_events hen)
    cases hval
  have hword : (t.ingressOut i).outValid = false := by
    refine Bool.eq_false_iff.mpr fun hen => ?_
    obtain ⟨val, hval⟩ := hevents _ (mem_word_events hen)
    cases hval
  have hreset : t.comRst i = false := by rw [Control.comRst, h.comRst, hrst]; rfl
  have hlogic : t.creditLogic i = ⟨t.transferCounter, false, false, false⟩ := by
    simp [Control.creditLogic, h.sendCreditPnd, h.transferCounter, hin, h.getCredit]
  have hdebtor : debtorNext 15 t.debtor (t.debtorIn i) =
      t.debtor + (if (t.ingressOut i).creditEn then (t.ingressOut i).creditVal else 0) -
        (if t.egress.transfer (t.egressIn i) then 1 else 0) := debtorNext_eq hreset hpos hlt
  refine ⟨?_, ?_, hdebtor, hword⟩
  · constructor <;> simp [Control.next, hreset, hlogic, hrst, hcom, h.comRst, h.transferCounter]
    simp [Creditor.next, Creditor.comb, Control.creditorIn, hreset, hin, h.getCredit, h.creditor]
  · rw [Control.next, hreset, hlogic]
    rfl

end Target

def Pc.waits : Pc → Bool
  | .credit (.wait _) => true
  | _ => false

theorem Pc.ne_wait {pc : Pc} (h : pc.waits = false) (p : Parse) : pc ≠ .credit (.wait p) := by
  rintro rfl
  cases h

theorem Caller.not_waits (ret : Caller) : ret.pc.waits = false := by cases ret <;> rfl

namespace Link

/-- A step that comes into the wait loop only with two bytes free, and begins a marker word only with room in the input
buffer for the words on their way to it, for this one and for one byte more. -/
structure InTime (s s' : Link) : Prop where
  waits : ∀ p q, s.pc = .parse p → s'.pc = .credit (.wait q) → 2 ≤ cbufFreeLevel s.ctx.inputBuffer
  begins : s.target.egress = .passthrough → s'.target.egress = .passthroughRepeat →
    (wordsOf s.incoming).length + 2 ≤ cbufFreeLevel s.ctx.inputBuffer

def TimelyStep (s s' : Link) : Prop := Step s s' ∧ InTime s s'

def ReachableInTime (s : Link) : Prop := ∃ s₀, Start s₀ ∧ Relation.ReflTransGen TimelyStep s₀ s

theorem steps_of_timely {s s' : Link} (h : Relation.ReflTransGen TimelyStep s s') : Relation.ReflTransGen Step s s' :=
  Relation.ReflTransGen.mono (fun _ _ hstep => hstep.1) _ _ h

theorem ReachableInTime.reachable {s : Link} (h : s.ReachableInTime) : s.Reachable := by
  obtain ⟨s₀, hstart, hsteps⟩ := h
  exact ⟨s₀, hstart, steps_of_timely hsteps⟩

theorem InTime.still {s s' : Link} (hpc : s'.pc = s.pc) (hroom : s'.target.egress = .passthroughRepeat →
    (wordsOf s.incoming).length + 2 ≤ cbufFreeLevel s.ctx.inputBuffer) : InTime s s' := by
  refine ⟨fun p q hp hq => ?_, fun _ => hroom⟩
  rw [hpc, hp] at hq
  cases hq

def session (pc : Pc) (ctx : BackendCtx) (down up : List UInt8) (t : Control) (fromLogic : List UInt8) : Link :=
  ⟨pc, ctx, false, false, down, up, t, fromLogic, false⟩

section Clock
variable (pc : Pc) (ctx : BackendCtx) (down up fromLogic : List UInt8)
variable {t : Control} {i : ControlIn} {c : Cycle} {w b : UInt8}

theorem clock_session (hi : i = (session pc ctx down up t fromLogic).controlIn c)
    (hword : (t.ingressOut i).outValid = false) :
    (session pc ctx down up t fromLogic).clock c =
      session pc ctx (if c.receive then down.tail else down)
        (if c.done then up ++ [(t.egressOut i).outData] else up) (t.next i)
        (if t.egress.transfer (t.egressIn i) then fromLogic.tail else fromLogic) := by
  subst hi
  have hfed : ((session pc ctx down up t fromLogic).clock c).fed = false := by
    rw [clock, session] at *
    dsimp only
    rw [hword]
    exact Bool.and_false _
  rw [clock] at hfed ⊢
  dsimp only at hfed
  rw [hfed]
  rfl

/-- A cycle in which nothing comes from the host. -/
theorem clock_silent (h : t.Serving) (hpos : 0 < t.debtor) (hlt : t.debtor < 2 ^ 15) (done : Bool)
    (hi : i = (session pc ctx down up t fromLogic).controlIn ⟨false, done, false, false⟩) :
    ∃ t', (session pc ctx down up t fromLogic).clock ⟨false, done, false, false⟩ =
        session pc ctx down (if done then up ++ [(t.egressOut i).outData] else up) t'
          (if t.egress.transfer (t.egressIn i) then fromLogic.tail else fromLogic) ∧
      t'.Serving ∧ t'.ingress = t.ingress ∧ t'.egress = t.egress.nxt (t.egressIn i) false ∧
      t'.debtor = t.debtor - if t.egress.transfer (t.egressIn i) then 1 else 0 := by
  obtain ⟨hn, he⟩ := ingress_events t i (by rw [hi]; rfl)
  have hvalid : i.ingressInValid = false := by rw [hi]; rfl
  rw [hvalid] at hn he
  have hnone : (t.ingressOut i).events = [] := he
  obtain ⟨hserving, hegress, hdebtor, hword⟩ := h.next (i := i) (by rw [hi]; rfl) (by rw [hi]; rfl)
    (by rw [hnone]; nofun) (fun _ => hpos) (by rw [hnone]; exact hlt)
  rw [hnone] at hdebtor
  exact ⟨_, clock_session pc ctx down up fromLogic hi hword, hserving, hn, hegress, hdebtor⟩

/-- The target takes a word of the user logic up. -/
theorem clock_takes (h : t.Serving) (he : t.egress = .idle) (hpos : 0 < t.debtor) (hlt : t.debtor < 2 ^ 15) :
    ∃ t', TimelyStep (session pc ctx down up t [w]) (session pc ctx down up t' [w]) ∧ t'.Serving ∧
      t'.ingress = t.ingress ∧ t'.egress = .passthrough ∧ t'.debtor = t.debtor := by
  obtain ⟨t', hclock, hs', hi', he', hd'⟩ := clock_silent pc ctx down up [w] h hpos hlt false rfl
  have howing : owing t.debtor = true := bne_iff_ne.mpr (Nat.ne_of_gt hpos)
  rw [he] at hclock he' hd'
  have hpass : t'.egress = .passthrough := by
    rw [he']
    simp [EgressState.nxt, Control.egressIn, howing, controlIn, session]
  have hstep := Step.clock (session pc ctx down up t [w]) ⟨false, false, false, false⟩ ⟨by simp, by simp, by simp⟩
  rw [hclock] at hstep
  exact ⟨t', ⟨hstep, .still rfl fun hrepeat => (by cases hpass.symm.trans hrepeat)⟩, hs', hi', hpass, hd'⟩

/-- It sends the first byte of it. -/
theorem clock_sends (h : t.Serving) (he : t.egress = .passthrough) (hpos : 0 < t.debtor) (hlt : t.debtor < 2 ^ 15) :
    ∃ t', Step (session pc ctx down up t [w]) (session pc ctx down (up ++ [w]) t' []) ∧ t'.Serving ∧
      t'.ingress = t.ingress ∧ t'.egress = (if w = marker then .passthroughRepeat else .idle) ∧
      t'.debtor = t.debtor - 1 := by
  obtain ⟨t', hclock, hs', hi', he', hd'⟩ := clock_silent pc ctx down up [w] h hpos hlt true rfl
  have henable : (t.egressOut ((session pc ctx down up t [w]).controlIn ⟨false, true, false, false⟩)).outEnable =
      true := by
    rw [Control.egressOut, he]
    exact bne_iff_ne.mpr (Nat.ne_of_gt hpos)
  have hstep := Step.clock (session pc ctx down up t [w]) ⟨false, true, false, false⟩
    ⟨by simp, fun _ => henable, by simp⟩
  rw [hclock, Control.egressOut, he] at hstep
  rw [he] at he' hd'
  exact ⟨t', hstep, hs', hi', he', hd'⟩

/-- For the first byte of a marker word there has to be room. -/
theorem clock_word (h : t.Serving) (he : t.egress = .idle) (hpos : 0 < t.debtor) (hlt : t.debtor < 2 ^ 15)
    (hroom : w = marker →
      (wordsOf (session pc ctx down up t [w]).incoming).length + 2 ≤ cbufFreeLevel ctx.inputBuffer) :
    ∃ t', Relation.ReflTransGen TimelyStep (session pc ctx down up t [w]) (session pc ctx down (up ++ [w]) t' []) ∧
      t'.Serving ∧ t'.ingress = t.ingress ∧
      t'.egress = (if w = marker then .passthroughRepeat else .idle) ∧ t'.debtor = t.debtor - 1 := by
  obtain ⟨t₁, hstep₁, hs₁, hi₁, he₁, hd₁⟩ := clock_takes pc ctx down up (w := w) h he hpos hlt
  rw [← hd₁] at hpos hlt ⊢
  obtain ⟨t₂, hstep₂, hs₂, hi₂, he₂, hd₂⟩ := clock_sends pc ctx down up (w := w) hs₁ he₁ hpos hlt
  refine ⟨t₂, .tail (.single hstep₁) ⟨hstep₂, .still rfl fun hrepeat => hroom ?_⟩, hs₂, hi₂.trans hi₁, he₂, hd₂⟩
  by_contra hw
  rw [if_neg hw] at he₂
  cases he₂.symm.trans hrepeat

theorem logic_step (t : Control) (w : UInt8) (he : t.egress ≠ .passthroughRepeat) :
    TimelyStep (session pc ctx down up t []) (session pc ctx down up t [w]) :=
  ⟨.logic _ w, .still rfl fun hrepeat => absurd hrepeat he⟩

/-- The target takes a byte of a credit in. -/
theorem clock_receive (h : t.Serving) (he : t.egress = .idle)
    (hemit : ∀ e ∈ ingressBytes.emit t.ingress b, ∃ val, e = .credit val)
    (hlt : t.debtor + granted (ingressBytes.emit t.ingress b) < 2 ^ 15) :
    ∃ t', TimelyStep (session pc ctx (b :: down) up t []) (session pc ctx down up t' []) ∧ t'.Serving ∧
      t'.ingress = ingressBytes.next t.ingress b ∧ t'.egress = .idle ∧
      t'.debtor = t.debtor + granted (ingressBytes.emit t.ingress b) := by
  set i := (session pc ctx (b :: down) up t []).controlIn ⟨true, false, false, false⟩ with hi
  obtain ⟨hn, hev⟩ := ingress_events t i rfl
  have hevents : (t.ingressOut i).events = ingressBytes.emit t.ingress b := hev
  have hnot : t.egress.transfer (t.egressIn i) = false := by
    rw [he]
    rfl
  obtain ⟨hserving, hegress, hdebtor, hword⟩ := h.next (i := i) rfl rfl (by rw [hevents]; exact hemit)
    (fun ht => absurd (hnot.symm.trans ht) Bool.false_ne_true) (by rw [hevents]; exact hlt)
  have hstep := Step.clock (session pc ctx (b :: down) up t []) ⟨true, false, false, false⟩
    ⟨fun _ => nofun, nofun, nofun⟩
  rw [clock_session pc ctx (b :: down) up [] hi hword, hnot] at hstep
  rw [hevents, hnot] at hdebtor
  have hidle : (t.next i).egress = .idle := by
    rw [hegress, he]
    simp [EgressState.nxt, Control.egressIn, hi, controlIn, session]
  exact ⟨_, ⟨hstep, .still rfl fun hrepeat => (by cases hidle.symm.trans hrepeat)⟩, hserving, hn, hidle, hdebtor⟩

theorem clock_receives (bs : List UInt8) (h : t.Serving) (he : t.egress = .idle)
    (hemit : ∀ e ∈ ingressBytes.emitted t.ingress bs, ∃ val, e = .credit val)
    (hlt : t.debtor + granted (ingressBytes.emitted t.ingress bs) < 2 ^ 15) :
    ∃ t', Relation.ReflTransGen TimelyStep (session pc ctx bs up t []) (session pc ctx [] up t' []) ∧ t'.Serving ∧
      t'.ingress = ingressBytes.after t.ingress bs ∧ t'.egress = .idle ∧
      t'.debtor = t.debtor + granted (ingressBytes.emitted t.ingress bs) := by
  induction bs generalizing t with
  | nil => exact ⟨t, .refl, h, rfl, he, rfl⟩
  | cons b bs ih =>
    rw [Transducer.emitted_cons] at hemit hlt ⊢
    rw [granted_append, ← Nat.add_assoc] at hlt ⊢
    obtain ⟨t₁, hstep, hs₁, hi₁, he₁, hd₁⟩ := clock_receive pc ctx bs up h he
      (fun e he => hemit e (List.mem_append_left _ he)) (Nat.lt_of_le_of_lt (Nat.le_add_right _ _) hlt)
    rw [← hi₁] at hemit hlt ⊢
    obtain ⟨t', hrest, hs', hi', he', hd'⟩ := ih hs₁ he₁ (fun e he => hemit e (List.mem_append_right _ he))
      (by rw [hd₁]; exact hlt)
    exact ⟨t', .head hstep hrest, hs', by rw [hi', hi₁]; rfl, he', by rw [hd', hd₁]⟩

end Clock

section Host
variable {ctx : BackendCtx} {t : Control} {w : UInt8}

/-- A step of the host that does not lead into the wait loop. -/
private theorem host_step {pc pc' : Pc} {ctx ctx' : BackendCtx} {down down' up up' fromLogic : List UInt8} (n : Nat)
    (h : (session pc ctx down up t fromLogic).hostStep n (fun _ => 0) =
      some (session pc' ctx' down' up' t fromLogic))
    (hpc : pc'.waits = false) :
    TimelyStep (session pc ctx down up t fromLogic) (session pc' ctx' down' up' t fromLogic) :=
  ⟨.host _ _ n _ h, fun _ q _ hq => absurd hq (Pc.ne_wait hpc q),
    fun hpass hrepeat => (by cases hpass.symm.trans hrepeat)⟩

private theorem update_step (ctx : BackendCtx) (t : Control) : TimelyStep (session .update ctx [] [] t [])
    (session (if ctx.credit < maxTranche then .credit .loop else .top) ctx [] [] t []) := by
  refine host_step 0 rfl ?_
  split <;> rfl

private theorem credit_step (ctx : BackendCtx) (t : Control) (ret : Caller) (down up fromLogic : List UInt8) :
    TimelyStep (session (.credit ret) ctx down up t fromLogic)
      (session (if ctx.targetCreditAdd = 0 then ret.pc
        else .grant ret ctx.targetCreditAdd (creditBytes ctx.targetCreditAdd)) ctx down up t fromLogic) := by
  refine host_step 0 rfl ?_
  split
  · exact Caller.not_waits ret
  · rfl

/-- The host reads the byte on its way. -/
theorem host_reads (hfree : 0 < cbufFreeLevel ctx.inputBuffer) :
    Relation.ReflTransGen TimelyStep (session .top ctx [] [w] t [])
      (session (.parse (.call (fun _ => 0) [w])) ctx [] [] t []) := by
  have hsize : 1 ≤ intMin (cbufFreeLevel ctx.inputBuffer) tmpBufferSize := by
    have hle := BackendCtx.freeLevel_le ctx.inputBuffer
    rw [intMin_eq (by omega) (by decide)]
    exact Nat.le_min.mpr ⟨hfree, by decide⟩
  have htop : TimelyStep (session .top ctx [] [w] t []) (session .term ctx [] [w] t []) := host_step 0 rfl rfl
  have hterm : TimelyStep (session .term ctx [] [w] t []) (session .readLevel ctx [] [w] t []) := host_step 0 rfl rfl
  have hlevel : TimelyStep (session .readLevel ctx [] [w] t [])
      (session (.read (cbufFreeLevel ctx.inputBuffer)) ctx [] [w] t []) :=
    host_step 0 rfl rfl
  have hread : TimelyStep (session (.read (cbufFreeLevel ctx.inputBuffer)) ctx [] [w] t [])
      (session (.parse (.call (fun _ => 0) [w])) ctx [] [] t []) := by
    refine host_step 1 ?_ rfl
    rw [hostStep, session]
    dsimp only
    rw [readStep, if_neg (Nat.ne_of_gt hfree)]
    dsimp only
    rw [if_pos ⟨hsize, Nat.le_refl _⟩, if_neg Nat.one_ne_zero, if_neg (Nat.ne_of_gt hfree)]
    rfl
  exact .tail (.tail (.tail (.single htop) hterm) hlevel) hread

/-- A word that is no marker is stored. -/
theorem host_stores (hbacked : ctx.Backed) (hc : 0 < ctx.credit) (hw : w ≠ marker) :
    Relation.ReflTransGen TimelyStep (session .top ctx [] [w] t [])
      (session .update { ctx with inputBuffer := ctx.inputBuffer ++ [w], credit := ctx.credit - 1 } [] [] t []) := by
  have hfree : 0 < cbufFreeLevel ctx.inputBuffer := Nat.lt_of_lt_of_le hc hbacked.credit_le
  set ctx' : BackendCtx := { ctx with inputBuffer := ctx.inputBuffer ++ [w], credit := ctx.credit - 1 } with hctx'
  set p : Parse := .call (fun _ => 0) [w]
  have hop : p.op = .word w { p with pc := .loop 1 } := by simp [p, Parse.op, Parse.call, hw]
  have hstore : TimelyStep (session (.parse p) ctx [] [] t [])
      (session (.parse { p with pc := .loop 1 }) ctx' [] [] t []) := by
    refine host_step 0 ?_ rfl
    rw [hostStep, session]
    dsimp only
    rw [parseStep, hop]
    dsimp only
    rw [BackendCtx.storeWord_eq hbacked w hc]
    rfl
  have hfinish : TimelyStep (session (.parse { p with pc := .loop 1 }) ctx' [] [] t [])
      (session .writeLevel ctx' [] [] t []) :=
    host_step 0 rfl rfl
  have hwrite : TimelyStep (session .writeLevel ctx' [] [] t []) (session .update ctx' [] [] t []) := by
    refine host_step 0 ?_ rfl
    rw [hostStep, session]
    dsimp only
    rw [writeLevelStep, if_pos (Nat.zero_le _), if_pos rfl]
    exact ite_self _
  exact .tail (.tail (.tail (host_reads hfree) hstore) hfinish) hwrite

/-- A marker makes it wait, if it has not given credit for two words. -/
theorem host_waits (ctx : BackendCtx) (hfree : 0 < cbufFreeLevel ctx.inputBuffer) (hc : ctx.credit < 2) :
    ∃ p next, Relation.ReflTransGen TimelyStep (session .top ctx [] [marker] t [])
        (session (.parse p) ctx [] [] t []) ∧
      Step (session (.parse p) ctx [] [] t []) (session (.credit (.wait p)) ctx [] [] t []) ∧ p.op = .wait next := by
  set p : Parse := .call (fun _ => 0) [marker]
  have hop : p.op = .wait { p with pc := .granted 0 } := rfl
  refine ⟨p, _, host_reads hfree, .host _ _ 0 (fun _ => 0) ?_, hop⟩
  rw [hostStep, session]
  dsimp only
  rw [parseStep, hop]
  dsimp only
  rw [if_neg (Nat.not_le.mpr hc)]
  rfl

def grantBytes (ctx : BackendCtx) : List UInt8 :=
  if ctx.targetCreditAdd = 0 then [] else creditBytes ctx.targetCreditAdd

/-- The bytes of a credit tell the target of this credit only. -/
theorem emitted_grantBytes {r : Ingress} (hbacked : ctx.Backed) (hr : r.state = .passthrough) :
    (ingressBytes.after r (grantBytes ctx)).state = .passthrough ∧
      (∀ e ∈ ingressBytes.emitted r (grantBytes ctx), ∃ val, e = .credit val) ∧
      granted (ingressBytes.emitted r (grantBytes ctx)) = ctx.targetCreditAdd := by
  have hadd := BackendCtx.targetCreditAdd_eq hbacked
  by_cases hzero : ctx.targetCreditAdd = 0
  · rw [grantBytes, if_pos hzero, hzero]
    exact ⟨hr, nofun, rfl⟩
  · obtain ⟨tranche, htranche⟩ : ∃ tranche : Tranche, tranche.val = ctx.targetCreditAdd :=
      ⟨⟨ctx.targetCreditAdd, Nat.pos_of_ne_zero hzero, by omega⟩, rfl⟩
    rw [grantBytes, if_neg hzero, ← htranche]
    obtain ⟨hstate, hevents⟩ := decode_credit r tranche hr
    refine ⟨hstate, ?_, ?_⟩
    · rw [hevents]
      exact fun e he => ⟨_, List.mem_singleton.mp he⟩
    · rw [hevents]
      rfl

/-- `update_credit` gives what it can. -/
theorem host_grants (ret : Caller) (down up fromLogic : List UInt8) (hbacked : ctx.Backed)
    (hcap : ctx.credit < 2 ^ 15) :
    Relation.ReflTransGen TimelyStep (session (.credit ret) ctx down up t fromLogic)
      (session ret.pc { ctx with credit := ctx.credit + ctx.targetCreditAdd } (down ++ grantBytes ctx) up t
        fromLogic) := by
  have hadd := BackendCtx.targetCreditAdd_eq hbacked
  by_cases hzero : ctx.targetCreditAdd = 0
  · have hstep := credit_step ctx t ret down up fromLogic
    rw [if_pos hzero] at hstep
    rw [grantBytes, if_pos hzero, hzero, List.append_nil]
    exact .single hstep
  · have hsize : sizeAdd ctx.credit ctx.targetCreditAdd = ctx.credit + ctx.targetCreditAdd := by
      have hmax : maxTranche = 16383 := rfl
      exact sizeAdd_eq (by omega)
    have hstep := credit_step ctx t ret down up fromLogic
    rw [if_neg hzero] at hstep
    rw [grantBytes, if_neg hzero, ← hsize]
    set add := ctx.targetCreditAdd
    have hfirst : TimelyStep (session (.grant ret add (creditBytes add)) ctx down up t fromLogic)
        (session (.grant ret add [creditFirst add, creditSecond add]) ctx (down ++ [marker]) up t fromLogic) :=
      host_step 0 rfl rfl
    have hsecond : TimelyStep
        (session (.grant ret add [creditFirst add, creditSecond add]) ctx (down ++ [marker]) up t fromLogic)
        (session (.grant ret add [creditSecond add]) ctx (down ++ [marker] ++ [creditFirst add]) up t fromLogic) :=
      host_step 0 rfl rfl
    have hlast : TimelyStep
        (session (.grant ret add [creditSecond add]) ctx (down ++ [marker] ++ [creditFirst add]) up t fromLogic)
        (session ret.pc { ctx with credit := sizeAdd ctx.credit add }
          (down ++ [marker] ++ [creditFirst add] ++ [creditSecond add]) up t fromLogic) :=
      host_step 0 rfl (Caller.not_waits ret)
    have hbytes : down ++ creditBytes add = down ++ [marker] ++ [creditFirst add] ++ [creditSecond add] := by
      rw [List.append_assoc, List.append_assoc]
      rfl
    rw [hbytes]
    exact .tail (.tail (.tail (.single hstep) hfirst) hsecond) hlast

end Host

structure Idle (ctx : BackendCtx) (t : Control) : Prop where
  serving : t.Serving
  egress : t.egress = .idle
  ingress : t.ingress.state = .passthrough
  debtor : t.debtor = ctx.credit

section Fill
variable {ctx : BackendCtx} {t : Control}

/-- The host gives the credit that it can, and the target gets it. -/
theorem Idle.update (h : Idle ctx t) (hbacked : ctx.Backed) (hcap : ctx.credit < 2 ^ 15) :
    ∃ credit t', Relation.ReflTransGen TimelyStep (session .update ctx [] [] t [])
        (session .top { ctx with credit := credit } [] [] t' []) ∧ Idle { ctx with credit := credit } t' ∧
      (0 < cbufFreeLevel ctx.inputBuffer → 0 < credit) := by
  have hadd := BackendCtx.targetCreditAdd_eq hbacked
  have hle := hbacked.credit_le
  have hmax : maxTranche = 16383 := rfl
  have hupdate := update_step ctx t
  by_cases hfew : ctx.credit < maxTranche
  · rw [if_pos hfew] at hupdate
    have hgrants := host_grants (t := t) .loop [] [] [] hbacked hcap
    obtain ⟨hstate, hcredits, hgranted⟩ := emitted_grantBytes hbacked h.ingress
    rw [List.nil_append] at hgrants
    generalize ctx.targetCreditAdd = add at hadd hgrants hgranted
    obtain ⟨t', hreceives, hs', hi', he', hd'⟩ := clock_receives .top { ctx with credit := ctx.credit + add } []
      (grantBytes ctx) h.serving h.egress hcredits (by rw [hgranted, h.debtor]; omega)
    refine ⟨_, t', .trans (.head hupdate hgrants) hreceives, ⟨hs', he', hi' ▸ hstate, ?_⟩, fun hfree => ?_⟩
    · rw [hd', hgranted, h.debtor]
    · omega
  · rw [if_neg hfew] at hupdate
    exact ⟨ctx.credit, t, .single hupdate, h, fun _ => by omega⟩

/-- A word goes from the user logic into the input buffer. -/
theorem Idle.deliver (h : Idle ctx t) (hbacked : ctx.Backed) (hcap : ctx.credit < 2 ^ 15) (hpos : 0 < ctx.credit)
    {w : UInt8} (hw : w ≠ marker) :
    ∃ credit t', Relation.ReflTransGen TimelyStep (session .top ctx [] [] t [])
        (session .top { ctx with inputBuffer := ctx.inputBuffer ++ [w], credit := credit } [] [] t' []) ∧
      Idle { ctx with inputBuffer := ctx.inputBuffer ++ [w], credit := credit } t' ∧
      (0 < cbufFreeLevel (ctx.inputBuffer ++ [w]) → 0 < credit) := by
  have hlogic := logic_step .top ctx [] [] t w (by rw [h.egress]; decide)
  obtain ⟨t₁, hword, hs₁, hi₁, he₁, hd₁⟩ := clock_word .top ctx [] [] (w := w) h.serving h.egress
    (by rw [h.debtor]; exact hpos) (by rw [h.debtor]; exact hcap) (fun hmarker => absurd hmarker hw)
  rw [if_neg hw] at he₁
  rw [h.debtor] at hd₁
  have hstores := host_stores (t := t₁) hbacked hpos hw
  have hbacked' : BackendCtx.Backed { ctx with inputBuffer := ctx.inputBuffer ++ [w], credit := ctx.credit - 1 } := by
    have hle := hbacked.credit_le
    have hfits := hbacked.fits
    rw [cbufFreeLevel] at hle
    constructor
    · rw [List.length_append, List.length_singleton]
      omega
    · rw [cbufFreeLevel, List.length_append, List.length_singleton]
      dsimp only
      omega
  have hidle : Idle { ctx with inputBuffer := ctx.inputBuffer ++ [w], credit := ctx.credit - 1 } t₁ :=
    ⟨hs₁, he₁, by rw [hi₁, h.ingress], hd₁⟩
  obtain ⟨credit, t', hupdate, hidle', hgive⟩ := hidle.update hbacked' (Nat.lt_of_le_of_lt (Nat.sub_le _ _) hcap)
  exact ⟨credit, t', .trans (.trans (.head hlogic hword) hstores) hupdate, hidle', hgive⟩

def held : Control := ⟨⟨.passthrough, 0⟩, .idle, 0, ⟨4090, 0⟩, 0, false, false, true, false⟩
def announcing : Control := ⟨⟨.passthrough, 63⟩, .sendCredit1, maxTranche, ⟨0, 4090⟩, 2045, true, false, false, false⟩
def announced : Control := ⟨⟨.passthrough, 63⟩, .idle, maxTranche, ⟨0, 4090⟩, 2045, false, false, false, false⟩

private theorem clock_byte (s s' : Link) (hdown : s.down ≠ []) (hs : s.clock ⟨true, false, false, false⟩ = s')
    (he : s'.target.egress ≠ .passthroughRepeat) : TimelyStep s s' := by
  subst hs
  exact ⟨.clock s _ ⟨fun _ => hdown, nofun, nofun⟩, .still rfl fun hrepeat => absurd hrepeat he⟩

private theorem clock_done (s s' : Link)
    (henable : (s.target.egressOut (s.controlIn ⟨false, true, false, false⟩)).outEnable = true)
    (hs : s.clock ⟨false, true, false, false⟩ = s') (he : s'.target.egress ≠ .passthroughRepeat) : TimelyStep s s' := by
  subst hs
  exact ⟨.clock s _ ⟨nofun, fun _ => henable, nofun⟩, .still rfl fun hrepeat => absurd hrepeat he⟩

theorem target_announces : Relation.ReflTransGen TimelyStep
    (session (.debt []) ⟨[], [], 0, maxTranche⟩ (resetComBytes 0 ++ creditBytes maxTranche) [] held [])
    (session (.debt []) ⟨[], [], 0, maxTranche⟩ [] [marker, 31, 250] announced []) := by
  have hreceives : Relation.ReflTransGen TimelyStep
      (session (.debt []) ⟨[], [], 0, maxTranche⟩ (resetComBytes 0 ++ creditBytes maxTranche) [] held [])
      (session (.debt []) ⟨[], [], 0, maxTranche⟩ [] [] announcing []) :=
    .tail (.tail (.tail (.tail (.single (clock_byte _ _ nofun rfl (by decide))) (clock_byte _ _ nofun rfl (by decide)))
      (clock_byte _ _ nofun rfl (by decide))) (clock_byte _ _ nofun rfl (by decide))) (clock_byte _ _ nofun rfl (by decide))
  exact .tail (.tail (.tail hreceives (clock_done _ _ rfl rfl (by decide))) (clock_done _ _ rfl rfl (by decide))) (clock_done _ _ rfl rfl (by decide))

/-- A run from `reset` on to the first reading of the host: it has given credit for a tranche, and the target has
announced its own. -/
theorem opened : (session .top ⟨[], [], 4090, maxTranche⟩ [] [] announced []).ReachableInTime ∧
    Idle ⟨[], [], 4090, maxTranche⟩ announced := by
  have hstart : Start (session (.release (resetComBytes 0)) ⟨[], [], 0, 0⟩ [] [] held []) :=
    ⟨rfl, rfl, rfl, .inl rfl, ⟨rfl, rfl, rfl, rfl, rfl, rfl, rfl, rfl⟩, rfl⟩
  have hreleased : Relation.ReflTransGen TimelyStep (session (.release (resetComBytes 0)) ⟨[], [], 0, 0⟩ [] [] held [])
      (session (.credit .reset) ⟨[], [], 0, 0⟩ (resetComBytes 0) [] held []) :=
    .tail (.tail (.tail (.single (host_step 0 rfl rfl)) (host_step 0 rfl rfl)) (host_step 0 rfl rfl)) (host_step 0 rfl rfl)
  have hbacked : BackendCtx.Backed ⟨[], [], 0, 0⟩ := ⟨Nat.zero_le _, Nat.zero_le _⟩
  have hadd : BackendCtx.targetCreditAdd ⟨[], [], 0, 0⟩ = maxTranche := BackendCtx.targetCreditAdd_eq hbacked
  have hbytes : grantBytes ⟨[], [], 0, 0⟩ = creditBytes maxTranche := by
    rw [grantBytes, hadd]
    rfl
  have hgrants := host_grants (t := held) .reset (resetComBytes 0) [] [] hbacked (by decide)
  rw [hadd, hbytes] at hgrants
  have hreads : Relation.ReflTransGen TimelyStep
      (session (.debt []) ⟨[], [], 0, maxTranche⟩ [] [marker, 31, 250] announced [])
      (session .top ⟨[], [], 4090, maxTranche⟩ [] [] announced []) :=
    .tail (.tail (.tail (.single (host_step 0 rfl rfl)) (host_step 0 rfl rfl)) (host_step 0 rfl rfl)) (host_step 0 rfl rfl)
  exact ⟨⟨_, hstart, .trans hreleased (.trans hgrants (.trans target_announces hreads))⟩,
    ⟨rfl, nofun, rfl, rfl, rfl⟩, rfl, rfl, rfl⟩

/-- Whatever number of words the input buffer holds, short of all, there is credit for another one. -/
theorem fills (k : Nat) (hk : k < 2 ^ 15) : ∃ ctx t, (session .top ctx [] [] t []).ReachableInTime ∧ Idle ctx t ∧
    ctx.inputBuffer.length = k ∧ 0 < ctx.credit := by
  induction k with
  | zero =>
    obtain ⟨hreach, hidle⟩ := opened
    exact ⟨_, _, hreach, hidle, rfl, by decide⟩
  | succ k ih =>
    obtain ⟨ctx, t, hreach, hidle, hlen, hpos⟩ := ih (by omega)
    have hinv := hreach.reachable.inv
    obtain ⟨credit, t', hsteps, hidle', hgive⟩ := hidle.deliver hinv.backed hinv.capped hpos (w := 0) (by decide)
    obtain ⟨s₀, hstart, hbefore⟩ := hreach
    have hlen' : (ctx.inputBuffer ++ [0]).length = k + 1 := by rw [List.length_append, hlen, List.length_singleton]
    refine ⟨_, t', ⟨s₀, hstart, .trans hbefore hsteps⟩, hidle', hlen', hgive ?_⟩
    rw [cbufFreeLevel, hlen']
    exact Nat.sub_pos_of_lt hk

/-- Both sides wait, and only the user can bring them on. -/
theorem fills_up : ∃ s : Link, s.Reachable ∧ (∃ p next, s.pc = .credit (.wait p) ∧ p.op = .wait next) ∧
    s.ctx.credit < 2 ∧ cbufFreeLevel s.ctx.inputBuffer - s.ctx.credit = 0 ∧
    s.target.egress = .passthroughRepeat ∧ s.target.debtor = 0 ∧ s.down = [] := by
  obtain ⟨ctx, t, hreach, hidle, hlen, hpos⟩ := fills 32767 (by decide)
  have hinv := hreach.reachable.inv
  have hle : ctx.credit ≤ cbufFreeLevel ctx.inputBuffer := hinv.backed.credit_le
  have hfree : cbufFreeLevel ctx.inputBuffer = 1 := by
    rw [cbufFreeLevel, hlen]
    rfl
  have hone : ctx.credit = 1 := by omega
  have hlogic := logic_step .top ctx [] [] t marker (by rw [hidle.egress]; decide)
  have hdebtor : 0 < t.debtor ∧ t.debtor < 2 ^ 15 := by
    rw [hidle.debtor]
    exact ⟨hpos, hinv.capped⟩
  obtain ⟨t₁, htakes, hs₁, -, he₁, hd₁⟩ := clock_takes .top ctx [] [] (w := marker) hidle.serving hidle.egress
    hdebtor.1 hdebtor.2
  rw [← hd₁] at hdebtor
  obtain ⟨t', hsends, -, -, he', hd'⟩ := clock_sends .top ctx [] [] (w := marker) hs₁ he₁ hdebtor.1 hdebtor.2
  obtain ⟨p, next, hreads, hwaits, hop⟩ := host_waits (t := t') ctx (by omega) (by omega)
  obtain ⟨s₀, hstart, hbefore⟩ := hreach.reachable
  have hsteps := Relation.ReflTransGen.trans hbefore
    (.tail (.trans (.tail (.tail (.single hlogic.1) htakes.1) hsends) (steps_of_timely hreads)) hwaits)
  refine ⟨_, ⟨s₀, hstart, hsteps⟩, ⟨p, next, rfl, hop⟩, ?_, ?_, he', ?_, rfl⟩
  · exact Nat.lt_of_le_of_lt (Nat.le_of_eq hone) (by decide)
  · exact Nat.sub_eq_zero_of_le (Nat.le_of_eq (hfree.trans hone.symm))
  · rw [session, hd', hd₁, hidle.debtor, hone]

end Fill
end Link
end Glip.Uart
