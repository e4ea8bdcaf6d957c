import Glip.Jtag.InputTransfer
import Glip.Jtag.OutputWords

/-! Both state machines of a data transfer, between the TAP and the FIFOs. -/
namespace Glip.Jtag
open Foundation
variable {W : Nat}

/-- What the FIFOs do in the cycles of a scan: whether the one of the input path is ready,
whether the out FIFO has a word, which words it hands out, and what its data lines carry
while it has none. -/
structure FifoSide (W : Nat) where
  inReady : Nat → Bool
  fifoValid : Nat → Bool
  fifo : Nat → BitVec W
  stale : Nat → BitVec W

structure Target (W : Nat) where
  input : InputFsm W
  output : OutputFsm W
  popped : Nat

namespace Target

/-- The wires between the state machines, as glip_jtag_toplevel.v connects them. -/
def outputIn (s : Target W) (f : FifoSide W) (i : TapIn × Nat) : OutputIn W :=
  ⟨i.1, s.input.error, s.input.accCnt, if f.fifoValid i.2 then f.fifo s.popped else f.stale i.2, f.fifoValid i.2⟩

structure Ready (s : Target W) : Prop where
  input : s.input.inputState = .idle
  inputBit : s.input.bitCnt = 0
  calm : s.input.Calm
  output : s.output.outputState = .idle
  outputBit : s.output.bitCnt = 0

end Target

def target (f : FifoSide W) : Transducer (Target W) (TapIn × Nat) (Bool × List (BitVec W)) where
  next s i :=
    let o := s.outputIn f i
    ⟨s.input.next s.input.jtagReset i.1 (f.inReady i.2), s.output.next o, s.popped + (s.output.pops o).length⟩
  emit s i :=
    let o := s.outputIn f i
    [((s.output.wires o).tdo, s.output.pops o)]

namespace Target
variable {s : Target W} {f : FifoSide W}

theorem ready_after_update (s : Target W) (f : FifoSide W) (tdi tdi' : Bool) (k k' : Nat) :
    ((target f).after s [(.updateDr tdi, k), (.captureDr tdi', k')]).Ready := by
  constructor <;>
    simp [target, outputIn, InputFsm.next, InputFsm.wires, InputFsm.Calm, OutputFsm.next, OutputFsm.wires,
      TapIn.updateDr, TapIn.captureDr]

def inputTrace (f : FifoSide W) (cs : List (TapIn × Nat)) : List (TapIn × Bool) := cs.map (Prod.map id f.inReady)

theorem inputTrace_append (f : FifoSide W) (cs ds : List (TapIn × Nat)) :
    inputTrace f (cs ++ ds) = inputTrace f cs ++ inputTrace f ds := List.map_append

def outputTrace (f : FifoSide W) : Target W → List (TapIn × Nat) → List (OutputIn W)
  | _, [] => []
  | s, c :: cs => s.outputIn f c :: outputTrace f ((target f).next s c) cs

theorem inputTrace_fst (f : FifoSide W) (cs : List (TapIn × Nat)) : (inputTrace f cs).map Prod.fst = cs.map Prod.fst := by
  rw [inputTrace, List.map_map]
  rfl

theorem outputTrace_tap (cs : List (TapIn × Nat)) : (s.outputTrace f cs).map OutputIn.tap = cs.map Prod.fst := by
  induction cs generalizing s with
  | nil => rfl
  | cons c cs ih =>
    rw [outputTrace, List.map_cons, List.map_cons, ih]
    rfl

theorem outputTrace_valid (cs : List (TapIn × Nat)) :
    (s.outputTrace f cs).map OutputIn.fifoValid = cs.map fun c => f.fifoValid c.2 := by
  induction cs generalizing s with
  | nil => rfl
  | cons c cs ih =>
    rw [outputTrace, List.map_cons, List.map_cons, ih]
    rfl

theorem outputTrace_append (cs ds : List (TapIn × Nat)) :
    s.outputTrace f (cs ++ ds) = s.outputTrace f cs ++ ((target f).after s cs).outputTrace f ds := by
  induction cs generalizing s with
  | nil => rfl
  | cons c cs ih =>
    rw [List.cons_append, outputTrace, outputTrace, ih]
    rfl

theorem after_input (cs : List (TapIn × Nat)) :
    ((target f).after s cs).input = (inputCycles W).after s.input (inputTrace f cs) := by
  induction cs generalizing s with
  | nil => rfl
  | cons c cs ih =>
    rw [Transducer.after_cons, ih]
    rfl

theorem emitted_eq (cs : List (TapIn × Nat)) :
    (target f).emitted s cs = (outputCycles W).emitted s.output (s.outputTrace f cs) := by
  induction cs generalizing s with
  | nil => rfl
  | cons c cs ih =>
    rw [Transducer.emitted_cons, ih]
    rfl

/-- The words that a run takes are the next ones of the out FIFO. -/
theorem taken_eq (cs : List (TapIn × Nat)) :
    s.output.taken (s.outputTrace f cs) =
      (List.range (s.output.taken (s.outputTrace f cs)).length).map fun k => f.fifo (s.popped + k) := by
  induction cs generalizing s with
  | nil => rfl
  | cons c cs ih =>
    let o := s.outputIn f c
    let s' := (target f).next s c
    have hcons : s.output.taken (s.outputTrace f (c :: cs)) = s.output.pops o ++ s'.output.taken (s'.outputTrace f cs) := rfl
    rw [hcons]
    by_cases hpop : ((s.output.wires o).fifoReady && o.fifoValid) = true
    · have hvalid : f.fifoValid c.2 = true := (Bool.and_eq_true_iff.mp hpop).2
      have hpops : s.output.pops o = [f.fifo s.popped] := by
        have hdata : o.fifoData = f.fifo s.popped := if_pos hvalid
        rw [OutputFsm.pops, if_pos hpop, hdata]
      have hpopped : s'.popped = s.popped + 1 := congrArg (fun ps => s.popped + List.length ps) hpops
      rw [hpops, List.singleton_append, List.length_cons, List.range_succ_eq_map, List.map_cons, List.map_map]
      refine congrArg _ ((ih (s := s')).trans (List.map_congr_left fun k _ => ?_))
      rw [hpopped, Function.comp_apply, Nat.add_assoc, Nat.add_comm 1]
    · have hpops : s.output.pops o = [] := if_neg hpop
      have hpopped : s'.popped = s.popped := congrArg (fun ps => s.popped + List.length ps) hpops
      rw [hpops, List.nil_append]
      rw [← hpopped]
      exact ih (s := s')

/-- What the output state machine sees of the input state machine. -/
theorem outputTrace_along {P : InputFsm W → Prop} {cs : List (TapIn × Nat)}
    (h : (inputCycles W).Along P s.input (inputTrace f cs)) :
    ∀ c ∈ s.outputTrace f cs, ∃ i, P i ∧ c.inError = i.error ∧ c.inWritten = i.accCnt := by
  induction cs generalizing s with
  | nil => exact fun c hc => by cases hc
  | cons c cs ih =>
    obtain ⟨h0, hs⟩ := (inputCycles W).along_cons.mp h
    intro d hd
    rcases List.mem_cons.mp hd with rfl | hd
    · exact ⟨s.input, h0, rfl, rfl⟩
    · exact ih (s := (target f).next s c) hs d hd

end Target
end Glip.Jtag
