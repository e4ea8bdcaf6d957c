import Glip.CircularBuffer.QueueRefinement
import Glip.Foundation.MachineInteger
import Glip.Uart.HostMessages
import Glip.Uart.TargetMessages

/-! The context of backend_uart.c, the port it talks to and the functions on both.
The two circular buffers are the queues that they refine. -/
namespace Glip.Uart
open Foundation CircularBuffer

def uartBufSize : Nat := 32 * 1024

structure BackendCtx where
  inputBuffer : List UInt8
  outputBuffer : List UInt8
  debt : Nat
  credit : Nat
  deriving DecidableEq

/-- The terminal: the bytes still to come from it, the bytes written to it, how
many bytes come until a read finds nothing, and for the next calls of
`write_blocking` either success or after how many bytes an error strikes. -/
structure Port where
  rx : List UInt8
  tx : List UInt8
  ready : Nat
  outcomes : List (Option Nat)
  deriving DecidableEq

theorem uartBufSize_eq : uartBufSize = 32768 := rfl

def cbufFreeLevel (q : List UInt8) : Nat := uartBufSize - q.length

def cbufWriteByte (q : List UInt8) (b : UInt8) : Option (List UInt8) :=
  match Queue.perform uartBufSize q (.write [b]) with
  | (.code .ok, q') => some q'
  | _ => none

def cbufDiscardAll (q : List UInt8) : Option (List UInt8) :=
  match Queue.perform uartBufSize q (.discard q.length) with
  | (.code .ok, q') => some q'
  | _ => none

@[simp] theorem cbufDiscardAll_eq (q : List UInt8) : cbufDiscardAll q = some [] := by
  simp [cbufDiscardAll, Queue.perform]

theorem cbufWriteByte_eq {q : List UInt8} (b : UInt8) (h : 0 < cbufFreeLevel q) :
    cbufWriteByte q b = some (q ++ [b]) := by
  have hle : q.length + 1 ≤ uartBufSize := by unfold cbufFreeLevel at h; omega
  simp [cbufWriteByte, Queue.perform, hle]

namespace Port

/-- `write_blocking` without a timeout, and whether it returned `0`. -/
def writeBlocking (p : Port) (bs : List UInt8) : Bool × Port :=
  match p.outcomes with
  | [] => (true, { p with tx := p.tx ++ bs })
  | none :: os => (true, { p with tx := p.tx ++ bs, outcomes := os })
  | some k :: os => (false, { p with tx := p.tx ++ bs.take (min k (bs.length - 1)), outcomes := os })

/-- A write that succeeds, or one that stops before its last byte. -/
theorem writeBlocking_cases (p : Port) (bs : List UInt8) (hbs : bs ≠ []) :
    ((p.writeBlocking bs).1 = true ∧ (p.writeBlocking bs).2.tx = p.tx ++ bs ∨
      (p.writeBlocking bs).1 = false ∧
        ∃ k < bs.length, (p.writeBlocking bs).2.tx = p.tx ++ bs.take k) ∧
      (p.writeBlocking bs).2.rx = p.rx ∧ (p.writeBlocking bs).2.ready = p.ready := by
  have hlen : 0 < bs.length := List.length_pos_iff.mpr hbs
  unfold writeBlocking
  rcases p.outcomes with _ | ⟨_ | k, os⟩
  · exact ⟨.inl ⟨rfl, rfl⟩, rfl, rfl⟩
  · exact ⟨.inl ⟨rfl, rfl⟩, rfl, rfl⟩
  · exact ⟨.inr ⟨rfl, min k (bs.length - 1), by omega, rfl⟩, rfl, rfl⟩

/-- `read_blocking` without a timeout; `none` is a read that never returns. -/
def readBlocking (p : Port) (size : Nat) : Option (List UInt8 × Port) :=
  if size ≤ p.rx.length then some (p.rx.take size, { p with rx := p.rx.drop size }) else none

def drain (p : Port) : Port := { p with rx := p.rx.drop p.ready, ready := 0 }

end Port

namespace BackendCtx

def updateDebt (ctx : BackendCtx) (first second : UInt8) : BackendCtx :=
  { ctx with debt := sizeAdd ctx.debt (debtTranche first second) }

def targetCreditAdd (ctx : BackendCtx) : Nat :=
  intMin (sizeSub (cbufFreeLevel ctx.inputBuffer) ctx.credit) maxTranche

def updateCredit (ctx : BackendCtx) (p : Port) : BackendCtx × Port :=
  let add := ctx.targetCreditAdd
  if add = 0 then (ctx, p)
  else
    let w := p.writeBlocking (creditBytes add)
    if w.1 then ({ ctx with credit := sizeAdd ctx.credit add }, w.2) else (ctx, w.2)

/-- What `parse_buffer` does with a word of the user; `none` is a failed assertion. -/
def storeWord (ctx : BackendCtx) (b : UInt8) : Option BackendCtx :=
  if 0 < ctx.credit then
    (cbufWriteByte ctx.inputBuffer b).map fun q => { ctx with inputBuffer := q, credit := ctx.credit - 1 }
  else none

/-- The part of `reset` after the de-assertion, up to the read of the debt. -/
def clear (ctx : BackendCtx) : Option BackendCtx := do
  let input ← cbufDiscardAll ctx.inputBuffer
  let output ← cbufDiscardAll ctx.outputBuffer
  pure { ctx with inputBuffer := input, outputBuffer := output, debt := 0 }

def readDebt (ctx : BackendCtx) (p : Port) : Option (BackendCtx × Port) := do
  let (debt, p) ← p.readBlocking 3
  match debt with
  | [d0, d1, d2] =>
    if d0 ≠ marker then
      -- a trash byte on the first access
      let (extra, p) ← p.readBlocking 1
      match extra with
      | [d3] => if d1 = marker then some (ctx.updateDebt d2 d3, p) else none
      | _ => none
    else some (ctx.updateDebt d1 d2, p)
  | _ => none

/-- The part of `reset` that sends the initial credit and reads the debt. -/
def exchange (ctx : BackendCtx) (p : Port) : Option (BackendCtx × Port) :=
  (ctx.updateCredit p).1.readDebt (ctx.updateCredit p).2

/-- `reset` with its return code; `none` is a run that aborts or never returns. -/
def reset (ctx : BackendCtx) (p : Port) : Option (Int × BackendCtx × Port) :=
  let w := p.writeBlocking (resetComBytes 1)
  if ¬w.1 then some (-1, ctx, w.2)
  else
    let w := w.2.drain.writeBlocking (resetComBytes 0)
    if ¬w.1 then some (-1, ctx, w.2)
    else ctx.clear.bind fun ctx => (ctx.exchange w.2).map fun r => (0, r)

/-- The credit that is given away has room in the input buffer. -/
structure Backed (ctx : BackendCtx) : Prop where
  fits : ctx.inputBuffer.length ≤ uartBufSize
  credit_le : ctx.credit ≤ cbufFreeLevel ctx.inputBuffer

variable {ctx : BackendCtx}

theorem Backed.of_eq {ctx' : BackendCtx} (h : ctx.Backed) (hin : ctx'.inputBuffer = ctx.inputBuffer)
    (hc : ctx'.credit = ctx.credit) : ctx'.Backed := ⟨hin ▸ h.fits, hin ▸ hc ▸ h.credit_le⟩

theorem freeLevel_le (q : List UInt8) : cbufFreeLevel q ≤ 32768 := by
  rw [cbufFreeLevel, uartBufSize_eq]
  exact Nat.sub_le _ _

theorem targetCreditAdd_eq (h : ctx.Backed) :
    ctx.targetCreditAdd = min (cbufFreeLevel ctx.inputBuffer - ctx.credit) maxTranche := by
  have hle := h.credit_le
  have hfree := freeLevel_le ctx.inputBuffer
  rw [targetCreditAdd, sizeSub_eq hle (by omega)]
  exact intMin_eq (by omega) (by decide)

attribute [irreducible] targetCreditAdd

/-- A credit that is sent adds what there is room for, at most a tranche. -/
theorem sizeAdd_credit (h : ctx.Backed) :
    sizeAdd ctx.credit ctx.targetCreditAdd =
      ctx.credit + min (cbufFreeLevel ctx.inputBuffer - ctx.credit) maxTranche := by
  have hle := h.credit_le
  have hfree := freeLevel_le ctx.inputBuffer
  rw [targetCreditAdd_eq h]
  exact sizeAdd_eq (by omega)

/-- `update_credit` has nothing to give, gives all it can, or fails to write. -/
theorem updateCredit_cases (ctx : BackendCtx) (p : Port) :
    (ctx.targetCreditAdd = 0 ∧ (ctx.updateCredit p).1 = ctx ∧ (ctx.updateCredit p).2.tx = p.tx ∨
      ctx.targetCreditAdd ≠ 0 ∧
        (ctx.updateCredit p).1 = { ctx with credit := sizeAdd ctx.credit ctx.targetCreditAdd } ∧
        (ctx.updateCredit p).2.tx = p.tx ++ creditBytes ctx.targetCreditAdd ∨
      ctx.targetCreditAdd ≠ 0 ∧ (ctx.updateCredit p).1 = ctx ∧
        ∃ k < 3, (ctx.updateCredit p).2.tx = p.tx ++ (creditBytes ctx.targetCreditAdd).take k) ∧
      (ctx.updateCredit p).2.rx = p.rx := by
  obtain ⟨hw, hrx, -⟩ := p.writeBlocking_cases (creditBytes ctx.targetCreditAdd) (by simp [creditBytes])
  by_cases hadd : ctx.targetCreditAdd = 0
  · simp [updateCredit, hadd]
  · rcases hw with ⟨hok, htx⟩ | ⟨hfail, k, hk, htx⟩
    · simp [updateCredit, hadd, hok, htx, hrx]
    · have he : ctx.updateCredit p = (ctx, (p.writeBlocking (creditBytes ctx.targetCreditAdd)).2) := by
        simp [updateCredit, hadd, hfail]
      rw [he]
      exact ⟨.inr (.inr ⟨hadd, rfl, k, hk, htx⟩), hrx⟩

/-- As long as the port takes what is written, `update_credit` gives all it can. -/
theorem updateCredit_writes (h : ctx.Backed) {p : Port} (hp : p.outcomes = []) :
    (ctx.updateCredit p).1 =
        { ctx with credit := ctx.credit + min (cbufFreeLevel ctx.inputBuffer - ctx.credit) maxTranche } ∧
      (ctx.updateCredit p).2.rx = p.rx ∧ (ctx.updateCredit p).2.outcomes = [] := by
  have hsize := sizeAdd_credit h
  have hadd := targetCreditAdd_eq h
  by_cases h0 : ctx.targetCreditAdd = 0
  · rw [h0] at hadd
    rw [← hadd]
    simp [updateCredit, h0, hp]
  · rw [← hsize]
    simp [updateCredit, h0, Port.writeBlocking, hp]

theorem Backed.updateCredit (h : ctx.Backed) (p : Port) : (ctx.updateCredit p).1.Backed := by
  have hle := h.credit_le
  rcases (updateCredit_cases ctx p).1 with ⟨-, hc, -⟩ | ⟨-, hc, -⟩ | ⟨-, hc, -⟩ <;> rw [hc]
  · exact h
  · refine ⟨h.fits, ?_⟩
    dsimp only
    rw [sizeAdd_credit h]
    omega
  · exact h

theorem storeWord_eq (h : ctx.Backed) (b : UInt8) (hc : 0 < ctx.credit) :
    ctx.storeWord b =
      some { ctx with inputBuffer := ctx.inputBuffer ++ [b], credit := ctx.credit - 1 } := by
  have := h.credit_le
  rw [storeWord, if_pos hc, cbufWriteByte_eq b (by omega)]
  rfl

theorem Backed.storeWord {ctx' : BackendCtx} {b : UInt8} (h : ctx.Backed) (hs : ctx.storeWord b = some ctx') :
    ctx'.Backed := by
  by_cases hc : 0 < ctx.credit
  · rw [storeWord_eq h b hc] at hs
    obtain rfl := Option.some_inj.mp hs
    have hle := h.credit_le
    have hfits := h.fits
    have hlen : (ctx.inputBuffer ++ [b]).length = ctx.inputBuffer.length + 1 := List.length_append
    unfold cbufFreeLevel at hle
    refine ⟨by dsimp only; omega, ?_⟩
    dsimp only [cbufFreeLevel]
    omega
  · simp [BackendCtx.storeWord, hc] at hs

theorem Backed.updateDebt (h : ctx.Backed) (first second : UInt8) : (ctx.updateDebt first second).Backed :=
  ⟨h.fits, h.credit_le⟩

end BackendCtx
end Glip.Uart
