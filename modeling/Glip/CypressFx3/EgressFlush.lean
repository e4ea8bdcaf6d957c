import Mathlib.Order.Basic
import Mathlib.Tactic.SplitIfs
import Glip.CypressFx3.Toplevel

/-! The words that the FX3 holds in a buffer that is not full are sent off some day. -/
namespace Glip.CypressFx3
open Fifo
variable {aw : Nat} {α : Type}

def FsmState.writes : FsmState → Bool
  | .delayWr | .flgARcvd | .waitFlgB | .write | .swWrite | .swWriteWaitflg | .writeFlush | .flush => true
  | _ => false

/-- A flush is to come: it is requested or timed, or there is more to write, or the machine is at it. -/
def Fsm.FlushAhead (s : Fsm) (outEmpty : Bool) : Prop :=
  s.flush = true ∨ 0 < s.idleCounter ∨ outEmpty = false ∨ s.state.writes = true

/-- The buffer of the FX3 after a cycle: a word in it, and no `pktend`, which sends it, and not full. -/
def FsmWires.leavesDirty (w : FsmWires) (f : Flags) (dirty : Bool) : Bool := (dirty || w.wr) && !w.pktend && !f.inFull

namespace Fsm
variable {s : Fsm} {f : Flags} {inAlmostFull outEmpty outEmpty' : Bool}

/-- The timer runs down to a request. -/
theorem defaults_ahead (h : s.flush = true ∨ 0 < s.idleCounter) :
    s.defaults.nxtFlush = true ∨ 0 < s.defaults.nxtIdleCounter := by
  rcases h with hflush | hidle
  · exact .inl (by simp [defaults, hflush])
  · by_cases hone : s.idleCounter = 1
    · exact .inl (by simp [defaults, hone])
    · right
      have hne : s.idleCounter ≠ 1 := hone
      simp only [defaults, hidle, if_true]
      bv_omega

variable (f inAlmostFull outEmpty) in
/-- Outside the states of a write and of a flush the machine leaves the egress FIFO and the timer alone, -/
theorem wires_of_not_writes (h : s.state.writes = false) :
    (s.wires f inAlmostFull outEmpty).wr = false ∧ (s.wires f inAlmostFull outEmpty).intFifoOutReady = false ∧
      (s.wires f inAlmostFull outEmpty).nxtFlush = s.defaults.nxtFlush ∧
      (s.wires f inAlmostFull outEmpty).nxtIdleCounter = s.defaults.nxtIdleCounter := by
  obtain ⟨st, idle, flush, count⟩ := s
  cases st
  case delayWr | flgARcvd | waitFlgB | write | swWrite | swWriteWaitflg | writeFlush | flush => cases h
  case flgCRcvd | swRead | readDrain1 | readDrain2 | readDrain3 | readDrain4 => exact ⟨rfl, rfl, rfl, rfl⟩
  all_goals
    simp only [wires]
    split_ifs <;> exact ⟨rfl, rfl, rfl, rfl⟩

/-- so that a flush that was ahead is still ahead. -/
theorem flushAhead_of_not_writes (hstate : s.state.writes = false) (h : s.FlushAhead outEmpty)
    (hstays : (s.wires f inAlmostFull outEmpty).intFifoOutReady = false → outEmpty = false → outEmpty' = false) :
    (s.wires f inAlmostFull outEmpty).registers.FlushAhead outEmpty' := by
  obtain ⟨-, hready, hflush, hidle⟩ := wires_of_not_writes f inAlmostFull outEmpty hstate
  have hregs : (s.wires f inAlmostFull outEmpty).registers.flush = s.defaults.nxtFlush ∧
      (s.wires f inAlmostFull outEmpty).registers.idleCounter = s.defaults.nxtIdleCounter := ⟨hflush, hidle⟩
  rw [FlushAhead, hregs.1, hregs.2]
  rcases h with hf | hi | he | hw
  · exact (defaults_ahead (.inl hf)).imp_right .inl
  · exact (defaults_ahead (.inr hi)).imp_right .inl
  · exact .inr (.inr (.inl (hstays hready he)))
  · exact absurd hw (Bool.eq_false_iff.mp hstate)

/-- The states of a write and of a flush, in a cycle in which the FX3 takes what there is. -/
theorem flushAhead_of_writes (hstate : s.state.writes = true) (hfull : f.inFull = false)
    (hpktend : (s.wires f inAlmostFull outEmpty).pktend = false)
    (hstays : (s.wires f inAlmostFull outEmpty).intFifoOutReady = false → outEmpty = false → outEmpty' = false) :
    (s.wires f inAlmostFull outEmpty).registers.FlushAhead outEmpty' := by
  have htimer : (0 : BitVec 14) < FORCE_SEND_TIMEOUT := by decide
  have hwrites {w : FsmWires} (hw : w.nxtState.writes = true) : w.registers.FlushAhead outEmpty' := .inr (.inr (.inr hw))
  obtain ⟨st, idle, flush, count⟩ := s
  cases st
  case delayWr => exact hwrites rfl
  case flgARcvd => exact hwrites rfl
  case swWrite => exact hwrites rfl
  case flush => exact absurd hpktend Bool.noConfusion
  case writeFlush =>
    apply hwrites
    simp only [wires, hfull]
    rfl
  case waitFlgB =>
    apply hwrites
    simp only [wires, hfull, Bool.false_eq_true, if_false]
    split_ifs <;> rfl
  case swWriteWaitflg =>
    simp only [wires]
    split_ifs
    · exact .inr (.inl htimer)
    · exact hwrites rfl
  case write =>
    simp only [wires] at hstays ⊢
    cases he : outEmpty with
    | true => exact .inr (.inl htimer)
    | false =>
      rw [he] at hstays
      -- the word that is there is not read when the FX3 is almost full
      cases hf : f.inAlmostFull with
      | true =>
        rw [hf] at hstays
        exact .inr (.inr (.inl (hstays rfl rfl)))
      | false => exact hwrites rfl
  all_goals exact absurd hstate Bool.noConfusion

/-- A cycle after which the buffer is dirty leaves a flush ahead. -/
theorem flushAhead_next {dirty : Bool} (h : dirty = true → s.FlushAhead outEmpty)
    (hdirty : (s.wires f inAlmostFull outEmpty).leavesDirty f dirty = true)
    (hstays : (s.wires f inAlmostFull outEmpty).intFifoOutReady = false → outEmpty = false → outEmpty' = false) :
    (s.wires f inAlmostFull outEmpty).registers.FlushAhead outEmpty' := by
  obtain ⟨hword, hpktend, hfull⟩ :
      (dirty || (s.wires f inAlmostFull outEmpty).wr) = true ∧ (s.wires f inAlmostFull outEmpty).pktend = false ∧
        f.inFull = false := by
    simpa [FsmWires.leavesDirty, and_assoc] using hdirty
  cases hstate : s.state.writes with
  | true => exact flushAhead_of_writes hstate hfull hpktend hstays
  | false =>
    rw [(wires_of_not_writes f inAlmostFull outEmpty hstate).1, Bool.or_false] at hword
    exact flushAhead_of_not_writes hstate (h hword) hstays

end Fsm

namespace Toplevel
variable [OfNat α 0]

def nextDirty (s : Toplevel aw α) (dirty : Bool) : Option (IoEdge aw α) → Bool
  | some i => (s.wires i.flags).leavesDirty i.flags dirty
  | none => dirty

def dirtyAfter : Toplevel aw α → Bool → List (Option (IoEdge aw α) × Option (ClkEdge aw α)) → Bool
  | _, dirty, [] => dirty
  | s, dirty, e :: es => dirtyAfter (s.next e.1 e.2) (s.nextDirty dirty e.1) es

/-- The buffer is dirty in a cycle: it was so before, or the cycle writes into it. -/
def dirtyIn (s : Toplevel aw α) (dirty : Bool) (f : Flags) : Bool := dirty || (s.wires f).wr && !f.inFull

/-- An egress FIFO that is not read keeps its word. -/
theorem egress_next_empty {s : Toplevel aw α} {i : IoEdge aw α} (hrst : i.intRst = false) (clk : Option (ClkEdge aw α))
    (hready : (s.wires i.flags).intFifoOutReady = false) (h : s.egress.empty = false) :
    (s.next (some i) clk).egress.empty = false := by
  have hnext : (s.next (some i) clk).egress.prefetch =
      s.egress.prefetch.next (s.wires i.flags).intFifoOutReady s.egress.rd.empty s.egress.rd.dout := by
    simp [Toplevel.next, DualClock.next, egressRead, hrst]
  rw [DualClock.empty, hnext, hready]
  exact Prefetch.next_empty _ _ _ h

theorem flushAhead_next {s : Toplevel aw α} {dirty : Bool} (h : dirty = true → s.fsm.FlushAhead s.egress.empty)
    (io : Option (IoEdge aw α)) (clk : Option (ClkEdge aw α)) (hdirty : s.nextDirty dirty io = true) :
    (s.next io clk).fsm.FlushAhead (s.next io clk).egress.empty := by
  cases io with
  | none => exact h hdirty
  | some i =>
    cases hrst : i.intRst with
    | true =>
      -- a reset asks for a flush
      left
      simp [Toplevel.next, hrst, Fsm.reset]
    | false =>
      have hfsm : (s.next (some i) clk).fsm = (s.wires i.flags).registers := by simp [Toplevel.next, hrst]
      rw [hfsm]
      exact Fsm.flushAhead_next h hdirty (egress_next_empty hrst clk)

theorem flushAhead_run (es : List (Option (IoEdge aw α) × Option (ClkEdge aw α))) {s : Toplevel aw α} {dirty : Bool}
    (h : dirty = true → s.fsm.FlushAhead s.egress.empty) (hdirty : s.dirtyAfter dirty es = true) :
    (s.after es).fsm.FlushAhead (s.after es).egress.empty := by
  induction es generalizing s dirty with
  | nil => exact h hdirty
  | cons e es ih => exact ih (flushAhead_next h e.1 e.2) hdirty

end Toplevel

/-- From reset on, whatever the FX3, the user logic and the two clocks do: in a cycle in which the FX3 holds words in a
buffer that is not full, a flush is requested or timed, or there is more to write, or the machine writes or flushes. -/
theorem egress_never_strands [OfNat α 0] (s₀ : Toplevel aw α) (hreset : s₀.IsReset)
    (es : List (Option (IoEdge aw α) × Option (ClkEdge aw α))) (f : Flags)
    (hdirty : (s₀.after es).dirtyIn (s₀.dirtyAfter false es) f = true) :
    (s₀.after es).fsm.FlushAhead (s₀.after es).egress.empty := by
  cases hd : s₀.dirtyAfter false es with
  | true =>
    apply Toplevel.flushAhead_run es _ hd
    rw [hreset.fsm]
    exact fun _ => .inl rfl
  | false =>
    -- the cycle itself writes
    rw [Toplevel.dirtyIn, hd, Bool.false_or] at hdirty
    have hwr := (Bool.and_eq_true_iff.mp hdirty).1
    cases hstate : (s₀.after es).fsm.state.writes with
    | true => exact .inr (.inr (.inr hstate))
    | false =>
      have hnot := (Fsm.wires_of_not_writes f (s₀.after es).intFifoInAlmostFull (s₀.after es).egress.empty hstate).1
      exact absurd (hnot.symm.trans hwr) Bool.false_ne_true

/-- A word of the user logic, a flush that is not for it, and two cycles of the timer. -/
theorem egress_never_strands_word :
    let cdc : DualClock 3 Nat := ⟨⟨0, 0, 0, 0, false, []⟩, ⟨0, 0, 0, 0, true, 0⟩, fun _ => 0, .reset 0⟩
    let s₀ : Toplevel 3 Nat := ⟨.reset, false, false, false, cdc, cdc⟩
    let io (full : Bool) : Option (IoEdge 3 Nat) × Option (ClkEdge 3 Nat) :=
      (some ⟨false, ⟨!full, true, false, false⟩, 0, 0, 1⟩, none)
    let es := (none, some ⟨false, false, true, 7, 0, 0⟩) :: (List.replicate 4 (io false) ++ [io true] ++ List.replicate 7 (io false))
    (s₀.after es).dirtyIn (s₀.dirtyAfter false es) ⟨true, true, false, false⟩ = true ∧
      (s₀.after es).fsm.FlushAhead (s₀.after es).egress.empty := by
  intro cdc s₀ io es
  have hcdc : cdc.IsReset := by constructor <;> rfl
  have hreset : s₀.IsReset := ⟨rfl, rfl, rfl, rfl, hcdc, hcdc⟩
  have hdirty : (s₀.after es).dirtyIn (s₀.dirtyAfter false es) ⟨true, true, false, false⟩ = true := by decide
  exact ⟨hdirty, egress_never_strands s₀ hreset es ⟨true, true, false, false⟩ hdirty⟩

end Glip.CypressFx3
