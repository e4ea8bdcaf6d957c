import Glip.Uart.BackendContext
import Glip.Uart.ControlIngress
import Mathlib.Logic.Relation

/-! What `reset` leaves of the earlier sessions of a context. -/
namespace Glip.Uart
open Foundation CircularBuffer

/-- `gb_uart_new` -/
def newBackendCtx : BackendCtx := ⟨[], [], 0, 0⟩

/-- What can happen to a context while it exists. `gb_uart_open` calls `reset` and
ignores what it returns; `gb_uart_close` changes no field of the context. -/
inductive CtxStep : BackendCtx → BackendCtx → Prop where
  | opened (ctx ctx' : BackendCtx) (p p' : Port) (rc : Int) :
      ctx.reset p = some (rc, ctx', p') → CtxStep ctx ctx'
  | word (ctx ctx' : BackendCtx) (b : UInt8) : ctx.storeWord b = some ctx' → CtxStep ctx ctx'
  | debt (ctx : BackendCtx) (first second : UInt8) : CtxStep ctx (ctx.updateDebt first second)
  | credit (ctx : BackendCtx) (p : Port) : CtxStep ctx (ctx.updateCredit p).1
  | sent (ctx : BackendCtx) (size : Nat) : size ≤ ctx.debt → size ≤ ctx.outputBuffer.length →
      CtxStep ctx { ctx with outputBuffer := ctx.outputBuffer.drop size, debt := ctx.debt - size }
  | userRead (ctx : BackendCtx) (size : Nat) : size ≤ ctx.inputBuffer.length →
      CtxStep ctx { ctx with inputBuffer := ctx.inputBuffer.drop size }
  | userWrite (ctx : BackendCtx) (data : List UInt8) : data.length ≤ cbufFreeLevel ctx.outputBuffer →
      CtxStep ctx { ctx with outputBuffer := ctx.outputBuffer ++ data }

def Lived : BackendCtx → Prop := Relation.ReflTransGen CtxStep newBackendCtx

section Reset
variable {ctx ctx' : BackendCtx} {p p' : Port} {rc : Int}

/-- The read of the debt changes nothing but the debt. -/
private theorem readDebt_keeps (h : ctx.readDebt p = some (ctx', p')) :
    ctx'.inputBuffer = ctx.inputBuffer ∧ ctx'.outputBuffer = ctx.outputBuffer ∧
      ctx'.credit = ctx.credit ∧ p'.tx = p.tx := by
  simp only [BackendCtx.readDebt, Port.readBlocking, BackendCtx.updateDebt, Option.bind_eq_bind] at h
  grind

variable (ctx) in
/-- With the target's credit on the line, perhaps after one byte of trash, the read
of the debt takes it over. -/
private theorem readDebt_announced {trash rest : List UInt8} {n : Fin (2 ^ 15)} (hlen : trash.length ≤ 1)
    (htrash : ∀ t ∈ trash, t ≠ marker) (hrx : p.rx = trash ++ (TargetMessage.credit n).bytes ++ rest) :
    ∃ p'', ctx.readDebt p = some ({ ctx with debt := sizeAdd ctx.debt n }, p'') := by
  have hn : debtTranche (creditHigh n) (creditLow n) = n := debtTranche_credit n.isLt
  match trash with
  | [] => simp [BackendCtx.readDebt, Port.readBlocking, hrx, TargetMessage.bytes, BackendCtx.updateDebt, hn]
  | [t] =>
    have ht : t ≠ marker := htrash t (by simp)
    simp [BackendCtx.readDebt, Port.readBlocking, hrx, TargetMessage.bytes, BackendCtx.updateDebt, hn, ht]
  | _ :: _ :: _ => simp at hlen

def cleared (ctx : BackendCtx) : BackendCtx :=
  { ctx with inputBuffer := [], outputBuffer := [], debt := 0 }

private theorem cleared_backed (h : ctx.Backed) : (cleared ctx).Backed := by
  have := h.credit_le
  have := BackendCtx.freeLevel_le ctx.inputBuffer
  refine ⟨Nat.zero_le _, ?_⟩
  simp only [cleared, cbufFreeLevel, List.length_nil, uartBufSize_eq]
  omega

private theorem reset_unwritten (h : (p.writeBlocking (resetComBytes 1)).1 = false) :
    ctx.reset p = some (-1, ctx, (p.writeBlocking (resetComBytes 1)).2) := by
  rw [BackendCtx.reset]
  simp only [h]
  rw [if_pos (by simp)]

private theorem reset_unreleased (h₁ : (p.writeBlocking (resetComBytes 1)).1 = true) {w : Bool × Port}
    (hw : (p.writeBlocking (resetComBytes 1)).2.drain.writeBlocking (resetComBytes 0) = w) (h₂ : w.1 = false) :
    ctx.reset p = some (-1, ctx, w.2) := by
  rw [BackendCtx.reset]
  simp only [h₁, hw, h₂]
  rw [if_neg (by simp), if_pos (by simp)]

private theorem reset_released (h₁ : (p.writeBlocking (resetComBytes 1)).1 = true) {w : Bool × Port}
    (hw : (p.writeBlocking (resetComBytes 1)).2.drain.writeBlocking (resetComBytes 0) = w) (h₂ : w.1 = true) :
    ctx.reset p = ((cleared ctx).exchange w.2).map fun r => (0, r) := by
  have hclear : ctx.clear = some (cleared ctx) := by simp [BackendCtx.clear, cleared]
  rw [BackendCtx.reset]
  simp only [h₁, hw, h₂]
  rw [if_neg (by simp), if_neg (by simp), hclear, Option.bind_some]

/-- `reset` fails with its first two writes, or it gives credit and reads the debt. -/
theorem reset_cases (h : ctx.reset p = some (rc, ctx', p')) :
    rc = -1 ∧ ctx' = ctx ∨ rc = 0 ∧ ∃ q : Port, q.rx = p.rx.drop p.ready ∧
      q.tx = p.tx ++ (resetComBytes 1 ++ resetComBytes 0) ∧
      (cleared ctx).exchange q = some (ctx', p') := by
  obtain ⟨hw₁, hrx₁, hready₁⟩ := p.writeBlocking_cases (resetComBytes 1) (by simp [resetComBytes])
  rcases hw₁ with ⟨hok₁, htx₁⟩ | ⟨hfail₁, -⟩
  · obtain ⟨hw₂, hrx₂, -⟩ :=
      (p.writeBlocking (resetComBytes 1)).2.drain.writeBlocking_cases (resetComBytes 0) (by simp [resetComBytes])
    rcases hw₂ with ⟨hok₂, htx₂⟩ | ⟨hfail₂, -⟩
    · right
      rw [reset_released hok₁ rfl hok₂, Option.map_eq_some_iff] at h
      obtain ⟨r, hread, heq⟩ := h
      obtain ⟨rfl, rfl⟩ : 0 = rc ∧ r = (ctx', p') := by simpa using heq
      refine ⟨rfl, _, ?_, ?_, hread⟩
      · rw [hrx₂, Port.drain, hrx₁, hready₁]
      · rw [htx₂, Port.drain, htx₁, List.append_assoc]
    · left
      rw [reset_unreleased hok₁ rfl hfail₂] at h
      cases h
      exact ⟨rfl, rfl⟩
  · left
    rw [reset_unwritten hfail₁] at h
    cases h
    exact ⟨rfl, rfl⟩

theorem BackendCtx.Backed.reset (h : ctx.Backed) (hr : ctx.reset p = some (rc, ctx', p')) : ctx'.Backed := by
  rcases reset_cases hr with ⟨-, rfl⟩ | ⟨-, q, -, -, hread⟩
  · exact h
  · obtain ⟨hin, -, hc, -⟩ := readDebt_keeps hread
    exact ((cleared_backed h).updateCredit q).of_eq hin hc

/-- In no state of a context is more credit given away than there is room for. -/
theorem lived_backed (h : Lived ctx) : ctx.Backed := by
  induction h with
  | refl => exact ⟨by simp [newBackendCtx], by simp [newBackendCtx]⟩
  | tail _ hstep ih =>
    cases hstep with
    | opened _ p p' rc hr => exact ih.reset hr
    | word _ b hs => exact ih.storeWord hs
    | debt first second => exact ih.updateDebt first second
    | credit p => exact ih.updateCredit p
    | sent size hd ho => exact ⟨ih.fits, ih.credit_le⟩
    | userRead size hle =>
      have hfits := ih.fits
      have hle := ih.credit_le
      refine ⟨?_, ?_⟩ <;> simp only [cbufFreeLevel, List.length_drop] at hle ⊢ <;> omega
    | userWrite data hroom => exact ⟨ih.fits, ih.credit_le⟩

end Reset

/-- The credit that the bytes `tx` give to a target whose communication reset has
just been released, and whose debtor is therefore zero. -/
def grantedBy (tx : List UInt8) : Nat := granted (ingressBytes.emitted ⟨.passthrough, 0⟩ tx)

/-- The agreement after a `reset` that wrote the bytes `sent` after its release of
the communication reset, when the target announced the credit `n`. -/
structure Agreed (ctx : BackendCtx) (sent : List UInt8) (n : Nat) : Prop where
  credit : ctx.credit = grantedBy sent
  debt : ctx.debt = n
  input : ctx.inputBuffer = []
  output : ctx.outputBuffer = []

def sentSince (p p' : Port) : List UInt8 := p'.tx.drop (p.tx.length + 4)

private theorem grantedBy_credit (t : Tranche) : grantedBy (creditBytes t.val) = t.val := by
  rw [grantedBy, (decode_credit _ t rfl).2]
  rfl

/-- A credit message that is cut short gives nothing. -/
private theorem grantedBy_cut (t : Tranche) {k : Nat} (hk : k < 3) :
    grantedBy ((creditBytes t.val).take k) = 0 := by
  have hmarker := (passthrough_marker ⟨.passthrough, 0⟩ rfl).2
  have hmatch := (passthrough_marker ⟨.passthrough, 0⟩ rfl).1
  obtain ⟨h0, h7⟩ := creditFirst_bits t
  match k, hk with
  | 0, _ => rfl
  | 1, _ => simp [grantedBy, creditBytes, hmarker, granted]
  | 2, _ => simp [grantedBy, creditBytes, hmarker, hmatch, (match_credit ⟨.stMatch, 0⟩ _ rfl h0 h7).2, granted]

section Agreement
variable {ctx ctx' : BackendCtx} {p p' : Port}

private theorem cleared_sizeAdd (h : ctx.Backed) :
    sizeAdd ctx.credit (cleared ctx).targetCreditAdd = ctx.credit + (cleared ctx).targetCreditAdd := by
  have hsize := BackendCtx.sizeAdd_credit (cleared_backed h)
  rw [← BackendCtx.targetCreditAdd_eq (cleared_backed h)] at hsize
  exact hsize

/-- Whatever becomes of the write, the credit that `reset` adds is the credit that it grants. -/
private theorem exchange_credit (h : ctx.Backed) {q : Port} (hx : (cleared ctx).exchange q = some (ctx', p')) :
    ctx'.inputBuffer = [] ∧ ctx'.outputBuffer = [] ∧
      ∃ sent, p'.tx = q.tx ++ sent ∧ ctx'.credit = ctx.credit + grantedBy sent := by
  obtain ⟨hin, hout, hc, htx⟩ := readDebt_keeps hx
  have hsize := cleared_sizeAdd h
  have hmax : (cleared ctx).targetCreditAdd ≤ maxTranche := by
    rw [BackendCtx.targetCreditAdd_eq (cleared_backed h)]
    exact Nat.min_le_right _ _
  rw [hin, hout, hc, htx]
  rcases (BackendCtx.updateCredit_cases (cleared ctx) q).1 with
    ⟨-, he, ht⟩ | ⟨hne, he, ht⟩ | ⟨hne, he, k, hk, ht⟩ <;> rw [he, ht]
  · exact ⟨rfl, rfl, [], (List.append_nil _).symm, rfl⟩
  · let t : Tranche := ⟨_, Nat.pos_of_ne_zero hne, hmax⟩
    have hg : grantedBy (creditBytes (cleared ctx).targetCreditAdd) = _ := grantedBy_credit t
    exact ⟨rfl, rfl, _, rfl, by rw [hg]; exact hsize⟩
  · let t : Tranche := ⟨_, Nat.pos_of_ne_zero hne, hmax⟩
    have hg : grantedBy ((creditBytes (cleared ctx).targetCreditAdd).take k) = 0 := grantedBy_cut t hk
    exact ⟨rfl, rfl, _, rfl, by rw [hg]; rfl⟩

/-- On a line that the target announces its credit on, perhaps after one byte of
trash, `reset` returns `0` as soon as its two resets can be written. -/
theorem reset_returns (ctx : BackendCtx) {trash rest : List UInt8} {n : Fin (2 ^ 15)}
    (hok : (p.writeBlocking (resetComBytes 1)).1 = true ∧
      ((p.writeBlocking (resetComBytes 1)).2.drain.writeBlocking (resetComBytes 0)).1 = true)
    (hlen : trash.length ≤ 1) (htrash : ∀ t ∈ trash, t ≠ marker)
    (hrx : p.rx.drop p.ready = trash ++ (TargetMessage.credit n).bytes ++ rest) :
    ∃ ctx' p', ctx.reset p = some (0, ctx', p') := by
  set w := (p.writeBlocking (resetComBytes 1)).2.drain.writeBlocking (resetComBytes 0) with hw
  obtain ⟨-, hrx₁, hready₁⟩ := p.writeBlocking_cases (resetComBytes 1) (by simp [resetComBytes])
  obtain ⟨-, hrx₂, -⟩ :=
    (p.writeBlocking (resetComBytes 1)).2.drain.writeBlocking_cases (resetComBytes 0) (by simp [resetComBytes])
  have hline : ((cleared ctx).updateCredit w.2).2.rx = trash ++ (TargetMessage.credit n).bytes ++ rest := by
    rw [(BackendCtx.updateCredit_cases _ _).2, hrx₂, Port.drain, hrx₁, hready₁, hrx]
  obtain ⟨p', hread⟩ := readDebt_announced ((cleared ctx).updateCredit w.2).1 hlen htrash hline
  rw [reset_released hok.1 hw.symm hok.2, BackendCtx.exchange, hread]
  exact ⟨_, p', rfl⟩

/-- A `reset` brings the two sides to agree exactly if the context came to it with
no credit left over. -/
theorem reset_agrees_iff (ctx : BackendCtx) (hctx : Lived ctx) (p p' : Port) (ctx' : BackendCtx)
    (hreset : ctx.reset p = some (0, ctx', p')) (trash rest : List UInt8) (n : Fin (2 ^ 15))
    (hlen : trash.length ≤ 1) (htrash : ∀ t ∈ trash, t ≠ marker)
    (hrx : p.rx.drop p.ready = trash ++ (TargetMessage.credit n).bytes ++ rest) :
    Agreed ctx' (sentSince p p') n ↔ ctx.credit = 0 := by
  have hb := lived_backed hctx
  obtain ⟨h, -⟩ | ⟨-, q, hq, htx, hx⟩ := reset_cases hreset
  · cases h
  obtain ⟨hin, hout, sent, hsent, hcredit⟩ := exchange_credit hb hx
  have hsince : sentSince p p' = sent := by
    have hlen : (p.tx ++ (resetComBytes 1 ++ resetComBytes 0)).length = p.tx.length + 4 := by
      rw [List.length_append]
      rfl
    rw [sentSince, hsent, htx, ← hlen]
    exact List.drop_left
  have hdebt : ctx'.debt = n := by
    have hline : ((cleared ctx).updateCredit q).2.rx = trash ++ (TargetMessage.credit n).bytes ++ rest := by
      rw [(BackendCtx.updateCredit_cases _ _).2, hq, hrx]
    have hzero : ((cleared ctx).updateCredit q).1.debt = 0 := by
      rcases (BackendCtx.updateCredit_cases (cleared ctx) q).1 with
        ⟨-, he, -⟩ | ⟨-, he, -⟩ | ⟨-, he, -⟩ <;> rw [he] <;> rfl
    obtain ⟨p'', hread⟩ := readDebt_announced ((cleared ctx).updateCredit q).1 hlen htrash hline
    rw [BackendCtx.exchange, hread] at hx
    cases hx
    rw [hzero]
    exact (sizeAdd_eq (by omega)).trans (Nat.zero_add _)
  constructor
  · intro hagreed
    have := hagreed.credit
    rw [hsince, hcredit] at this
    omega
  · intro hzero
    exact ⟨by rw [hsince, hcredit, hzero, Nat.zero_add], hdebt, hin, hout⟩

end Agreement

def announcing : Port := ⟨(TargetMessage.credit 4090).bytes, [], 0, []⟩

def announced : Port := ⟨[], resetComBytes 1 ++ resetComBytes 0 ++ creditBytes maxTranche, 0, []⟩

private theorem first_reset :
    newBackendCtx.reset announcing = some (0, ⟨[], [], 4090, 16383⟩, announced) := by
  decide +kernel

theorem reset_agrees_iff_fresh :
    Agreed ⟨[], [], 4090, 16383⟩ (sentSince announcing announced) (4090 : Fin (2 ^ 15)) ↔ newBackendCtx.credit = 0 :=
  reset_agrees_iff newBackendCtx .refl announcing announced ⟨[], [], 4090, 16383⟩ first_reset
    [] [] 4090 (by decide) (by simp) (by decide +kernel)

private theorem second_reset :
    BackendCtx.reset ⟨[], [], 4090, 16383⟩ announcing = some (0, ⟨[], [], 4090, 32766⟩, announced) := by
  decide +kernel

/-- A context that is opened, closed and opened again believes that the target holds
twice the credit that it has been given. -/
theorem reset_disagrees :
    ∃ ctx ctx' p p', Lived ctx ∧ ctx.reset p = some (0, ctx', p') ∧
      p.rx.drop p.ready = (TargetMessage.credit 4090).bytes ∧ ¬ Agreed ctx' (sentSince p p') 4090 ∧
      ctx'.credit = 32766 ∧ grantedBy (sentSince p p') = 16383 := by
  have hgranted : grantedBy (sentSince announcing announced) = 16383 := by decide +kernel
  refine ⟨_, _, announcing, announced, .single (.opened _ _ _ _ _ first_reset), second_reset,
    rfl, ?_, rfl, hgranted⟩
  intro h
  have := h.credit
  rw [hgranted] at this
  exact absurd this (by decide)

end Glip.Uart
