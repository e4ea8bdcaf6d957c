import Glip.Fifo.DualClockQueue
import Glip.Scaler.Downscale

/-! The egress data path of glip_uart_toplevel.v between the user logic and the control
module: `u_egress_downscale`, `u_egress_cdc` and the enables and resets of the FIFO.
`BUFFER_OUT_DEPTH` is `2 ^ aw`. -/
namespace Glip.Uart
open Foundation Fifo Scaler
variable {aw W : Nat}

structure EgressPath (aw : Nat) where
  fifoEnLogic : BitVec 3
  fifoRstLogic : BitVec 2
  fifoRstIo : BitVec 2
  downscale : Downscale 8
  cdc : DualClock aw (BitVec 8)

structure EgressClkEdge (aw W : Nat) where
  comRst : Bool
  fifoOutValid : Bool
  fifoOutData : BitVec W
  rdAddrGray : BitVec aw

structure EgressIoEdge (aw : Nat) where
  comRst : Bool
  egressCtrlInReady : Bool
  wrAddrGray : BitVec aw

def nextFifoRst (comRst : Bool) (fifoRst : BitVec 2) : BitVec 2 :=
  if comRst then 1#1 ++ fifoRst.extractLsb' 1 1 else 0

def nextFifoEn (comRst : Bool) (fifoEn : BitVec 3) : BitVec 3 :=
  if comRst then 0 else 1#1 ++ fifoEn.extractLsb' 1 2

namespace EgressPath
variable (s : EgressPath aw) (clk : Option (EgressClkEdge aw W)) (io : Option (EgressIoEdge aw))

def fifoRst : Bool := s.fifoRstIo.getLsbD 0 && s.fifoRstLogic.getLsbD 0

def fifoEn : Bool := s.fifoEnLogic.getLsbD 0

def downscaleOutReady : Bool := !s.cdc.full

def cdcWrite (i : EgressClkEdge aw W) : WriteEdge aw (BitVec 8) where
  wrRst := s.fifoRst
  wrEn := s.downscale.outValid W i.fifoOutValid && s.fifoEn
  din := s.downscale.outData i.fifoOutData
  rdAddrGray := i.rdAddrGray

def cdcRead (i : EgressIoEdge aw) : ReadEdge aw := ⟨s.fifoRst, i.egressCtrlInReady, i.wrAddrGray⟩

def next : EgressPath aw where
  fifoEnLogic := match clk with
    | some i => nextFifoEn i.comRst s.fifoEnLogic
    | none => s.fifoEnLogic
  fifoRstLogic := match clk with
    | some i => nextFifoRst i.comRst s.fifoRstLogic
    | none => s.fifoRstLogic
  fifoRstIo := match io with
    | some i => nextFifoRst i.comRst s.fifoRstIo
    | none => s.fifoRstIo
  downscale := match clk with
    | some i => s.downscale.next i.comRst i.fifoOutValid s.downscaleOutReady i.fifoOutData
    | none => s.downscale
  cdc := s.cdc.next 0 (clk.map s.cdcWrite) (io.map s.cdcRead)

/-- The word that is accepted on the user port, `com_rst` being released. -/
def accepts : List (BitVec W) :=
  match clk with
  | some i => if i.comRst then [] else s.downscale.takes i.fifoOutValid s.downscaleOutReady i.fifoOutData
  | none => []

def hands : List (BitVec 8) := s.cdc.delivers (io.map s.cdcRead)

/-- The bytes of accepted words that have not been handed on. -/
def contents (W : Nat) : List (BitVec 8) := s.cdc.contents ++ s.downscale.kept W

structure InReset (s : EgressPath aw) : Prop where
  fifoEnLogic : s.fifoEnLogic = 0
  fifoRstLogic : s.fifoRstLogic = 3
  fifoRstIo : s.fifoRstIo = 3
  scale : s.downscale.scale = false
  cdc : s.cdc.IsReset

end EgressPath

abbrev EgressEdge (aw W : Nat) : Type := Option (EgressClkEdge aw W) × Option (EgressIoEdge aw)

def egressWords (aw W : Nat) : Transducer (EgressPath aw) (EgressEdge aw W) (BitVec W) where
  next s e := s.next e.1 e.2
  emit s e := s.accepts e.1

def egressBytes (aw W : Nat) : Transducer (EgressPath aw) (EgressEdge aw W) (BitVec 8) where
  next s e := s.next e.1 e.2
  emit s e := s.hands e.2

/-- A run that begins in reset: neither clock sees `com_rst` again once it has seen it
released, and the synchronisers take what there is to sample. -/
def EgressPath.Run (s : EgressPath aw) (clkUp ioUp : Bool) : List (EgressEdge aw W) → Prop
  | [] => True
  | e :: es =>
    s.cdc.Sampled 0 (e.1.map s.cdcWrite) (e.2.map s.cdcRead) ∧
      (∀ i ∈ e.1, clkUp = true → i.comRst = false) ∧ (∀ i ∈ e.2, ioUp = true → i.comRst = false) ∧
      Run (s.next e.1 e.2) (clkUp || e.1.any fun i => !i.comRst) (ioUp || e.2.any fun i => !i.comRst) es

instance : (s : EgressPath aw) → (clkUp ioUp : Bool) → (es : List (EgressEdge aw W)) → Decidable (s.Run clkUp ioUp es)
  | _, _, _, [] => instDecidableTrue
  | s, clkUp, ioUp, e :: es =>
    have : Decidable ((s.next e.1 e.2).Run (clkUp || e.1.any fun i => !i.comRst)
        (ioUp || e.2.any fun i => !i.comRst) es) := instDecidableRun _ _ _ es
    inferInstanceAs (Decidable (_ ∧ _ ∧ _ ∧ _))

def bigEndianBytes (word : BitVec W) : List (BitVec 8) :=
  (List.range (W / 8)).reverse.map fun k => word.extractLsb' (8 * k) 8

theorem bigEndianBytes_eq (hW : W = 8 ∨ W = 16) (word : BitVec W) : bigEndianBytes word = parts 8 word := by
  rcases hW with rfl | rfl
  · simp [bigEndianBytes, parts, BitVec.extractLsb'_eq_self]
  · simp [bigEndianBytes, parts, List.range_succ, BitVec.setWidth_eq_extractLsb']

def OfferedLate (es : List (EgressEdge aw W)) : Prop :=
  ∀ i ∈ ((es.filterMap Prod.fst).filter fun i => !i.comRst).take 3, i.fifoOutValid = false

instance (es : List (EgressEdge aw W)) : Decidable (OfferedLate es) :=
  inferInstanceAs (Decidable (∀ i ∈ (_ : List _), _))

end Glip.Uart
