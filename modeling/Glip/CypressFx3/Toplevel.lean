import Glip.CypressFx3.FlagFsm
import Glip.Fifo.DualClockQueue

/-! glip_cypressfx3_toplevel.sv over the edges of `clk_io_100` and `clk`. `BUFFER_DEPTH`
is `2 ^ aw`. -/
namespace Glip.CypressFx3
open Fifo
variable {aw : Nat} {α : Type} [OfNat α 0]

def PROG_FULL : Nat := 4

structure Toplevel (aw : Nat) (α : Type) where
  fsm : Fsm
  rdDelay0 : Bool
  rdDelay1 : Bool
  intFifoInValid : Bool
  /-- `u_ingress_cdc`, written on `clk_io_100` -/
  ingress : DualClock aw α
  /-- `u_egress_cdc`, written on `clk` -/
  egress : DualClock aw α

structure IoEdge (aw : Nat) (α : Type) where
  intRst : Bool
  flags : Flags
  fx3Dq : α
  ingressRdAddrGray : BitVec aw
  egressWrAddrGray : BitVec aw

structure ClkEdge (aw : Nat) (α : Type) where
  intRst : Bool
  fifoInReady : Bool
  fifoOutValid : Bool
  fifoOutData : α
  ingressWrAddrGray : BitVec aw
  egressRdAddrGray : BitVec aw

def ClkEdge.ingressRead (c : ClkEdge aw α) : ReadEdge aw := ⟨c.intRst, c.fifoInReady, c.ingressWrAddrGray⟩

def ClkEdge.egressWrite (c : ClkEdge aw α) : WriteEdge aw α :=
  ⟨c.intRst, c.fifoOutValid, c.fifoOutData, c.egressRdAddrGray⟩

namespace Toplevel
variable (s : Toplevel aw α) (io : Option (IoEdge aw α)) (clk : Option (ClkEdge aw α))

def intFifoInAlmostFull : Bool := s.ingress.wr.progFull PROG_FULL

def wires (f : Flags) : FsmWires := s.fsm.wires f s.intFifoInAlmostFull s.egress.empty

def ingressWrEn (f : Flags) : Bool := s.intFifoInValid && !f.outEmpty

def ingressWrite (i : IoEdge aw α) : WriteEdge aw α :=
  ⟨i.intRst, s.ingressWrEn i.flags, i.fx3Dq, i.ingressRdAddrGray⟩

def egressRead (i : IoEdge aw α) : ReadEdge aw := ⟨i.intRst, (s.wires i.flags).intFifoOutReady, i.egressWrAddrGray⟩

def next : Toplevel aw α where
  fsm := match io with
    | some i => if i.intRst then Fsm.reset else (s.wires i.flags).registers
    | none => s.fsm
  rdDelay0 := match io with
    | some i => !i.intRst && (s.wires i.flags).rd
    | none => s.rdDelay0
  rdDelay1 := match io with
    | some i => !i.intRst && s.rdDelay0
    | none => s.rdDelay1
  intFifoInValid := match io with
    | some i => !i.intRst && s.rdDelay1
    | none => s.intFifoInValid
  ingress := s.ingress.next PROG_FULL (io.map s.ingressWrite) (clk.map ClkEdge.ingressRead)
  egress := s.egress.next 0 (clk.map ClkEdge.egressWrite) (io.map s.egressRead)

def after (es : List (Option (IoEdge aw α) × Option (ClkEdge aw α))) : Toplevel aw α :=
  es.foldl (fun s e => s.next e.1 e.2) s

structure IsReset (s : Toplevel aw α) : Prop where
  fsm : s.fsm = Fsm.reset
  rdDelay0 : s.rdDelay0 = false
  rdDelay1 : s.rdDelay1 = false
  intFifoInValid : s.intFifoInValid = false
  ingress : s.ingress.IsReset
  egress : s.egress.IsReset

theorem isReset_next {i : IoEdge aw α} {c : ClkEdge aw α} (hi : i.intRst = true) (hc : c.intRst = true) :
    (s.next (some i) (some c)).IsReset := by
  constructor
  case ingress => exact DualClock.isReset_next hi hc
  case egress => exact DualClock.isReset_next hc hi
  all_goals simp [Toplevel.next, hi]

/-- A run without `int_rst` whose synchronisers take what there is to sample. -/
def Run (s : Toplevel aw α) : List (Option (IoEdge aw α) × Option (ClkEdge aw α)) → Prop
  | [] => True
  | e :: es =>
    s.ingress.Sampled PROG_FULL (e.1.map s.ingressWrite) (e.2.map ClkEdge.ingressRead) ∧
      s.egress.Sampled 0 (e.2.map ClkEdge.egressWrite) (e.1.map s.egressRead) ∧
      (∀ i ∈ e.1, i.intRst = false) ∧ (∀ c ∈ e.2, c.intRst = false) ∧ Run (s.next e.1 e.2) es

instance : (s : Toplevel aw α) → (es : List (Option (IoEdge aw α) × Option (ClkEdge aw α))) → Decidable (s.Run es)
  | _, [] => instDecidableTrue
  | s, e :: es =>
    have : Decidable ((s.next e.1 e.2).Run es) := instDecidableRun _ es
    inferInstanceAs (Decidable (_ ∧ _ ∧ _ ∧ _ ∧ _))

end Toplevel
end Glip.CypressFx3
