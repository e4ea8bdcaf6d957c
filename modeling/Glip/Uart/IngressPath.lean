import Glip.Fifo.SingleClock
import Glip.Scaler.Upscale
import Glip.Uart.CreditGrants
import Glip.Uart.EgressPath

/-! The ingress data path of glip_uart_toplevel.v: the control module, which takes the bytes of
the host apart and grants credit, `u_ingress_cdc`, `u_ingress_upscale` and `u_ingress_buffer`. -/
namespace Glip.Uart
open Foundation Fifo Scaler
variable {W : Nat}

structure IngressPath (W : Nat) where
  control : Control
  fifoEnIo : BitVec 3
  fifoRstIo : BitVec 2
  fifoRstLogic : BitVec 2
  cdc : DualClock 4 (BitVec 8)
  upscale : Upscale 8
  buffer : SingleClockFwft 5 (BitVec W)

structure IngressIoEdge where
  rst : Bool
  receiveData : UInt8
  receiveEnable : Bool
  egressInData : UInt8
  egressInValid : Bool
  transmitDone : Bool
  rdAddrGray : BitVec 4

structure IngressClkEdge where
  rst : Bool
  fifoInReady : Bool
  wrAddrGray : BitVec 4

namespace IngressPath
variable (s : IngressPath W) (io : Option IngressIoEdge) (clk : Option IngressClkEdge)

def fifoRst : Bool := s.fifoRstIo.getLsbD 0 && s.fifoRstLogic.getLsbD 0

def fifoEn : Bool := s.fifoEnIo.getLsbD 0

/-- A byte waits on the read side of `u_ingress_cdc`, and its write side is not full. -/
def transferIn : Bool := !s.cdc.empty && !s.cdc.full

def controlIn (i : IngressIoEdge) : ControlIn :=
  ⟨i.rst, i.receiveData, i.receiveEnable, !s.cdc.full, i.egressInData, i.egressInValid, i.transmitDone, s.transferIn⟩

def ingressOut (i : IngressIoEdge) : IngressOut := s.control.ingressOut (s.controlIn i)

def cdcWrite (i : IngressIoEdge) : WriteEdge 4 (BitVec 8) where
  wrRst := s.fifoRst
  wrEn := (s.ingressOut i).outValid && s.fifoEn
  din := (s.ingressOut i).outData.toBitVec
  rdAddrGray := i.rdAddrGray

def upscaleInReady : Bool := s.upscale.inReady W !s.buffer.full

def cdcRead (i : IngressClkEdge) : ReadEdge 4 := ⟨s.fifoRst, s.upscaleInReady, i.wrAddrGray⟩

def bufferIn (i : IngressClkEdge) : FifoIn (BitVec W) where
  wrEn := s.upscale.outValid W (!s.cdc.empty) && s.fifoEn
  rdEn := i.fifoInReady
  din := s.upscale.outData W s.cdc.prefetch.dout

def next : IngressPath W where
  control := match io with
    | some i => s.control.next (s.controlIn i)
    | none => s.control
  fifoEnIo := match io with
    | some i => nextFifoEn (s.control.comRst (s.controlIn i)) s.fifoEnIo
    | none => s.fifoEnIo
  fifoRstIo := match io with
    | some i => nextFifoRst (s.control.comRst (s.controlIn i)) s.fifoRstIo
    | none => s.fifoRstIo
  fifoRstLogic := match clk with
    | some i => nextFifoRst (s.control.comRstHost || i.rst) s.fifoRstLogic
    | none => s.fifoRstLogic
  cdc := s.cdc.next 0 (io.map s.cdcWrite) (clk.map s.cdcRead)
  upscale := match clk with
    | some _ => s.upscale.next W (s.fifoRstLogic.getLsbD 0) (!s.cdc.empty) (!s.buffer.full) s.cdc.prefetch.dout
    | none => s.upscale
  buffer := match clk with
    | some i => if s.fifoRstLogic.getLsbD 0 then s.buffer.reset (s.bufferIn i) 0 else s.buffer.next (s.bufferIn i)
    | none => s.buffer

/-- The user byte that is decoded, whether or not there is room for it. -/
def userBytes : List (BitVec 8) := match io with
  | some i => if (s.ingressOut i).outValid then [(s.ingressOut i).outData.toBitVec] else []
  | none => []

def accepts : List (BitVec 8) := s.cdc.accepts (io.map s.cdcWrite)

def takes : List (BitVec 8) := s.cdc.delivers (clk.map s.cdcRead)

structure Released (s : IngressPath W) : Prop where
  control : s.control.CreditReset
  comRstHost : s.control.comRstHost = false
  fifoEnIo : s.fifoEnIo = 0
  fifoRstIo : s.fifoRstIo = 3
  fifoRstLogic : s.fifoRstLogic = 3
  cdc : s.cdc.IsReset

end IngressPath

abbrev IngressEdge : Type := Option IngressIoEdge × Option IngressClkEdge

inductive IngressPathEvent where
  | user (b : BitVec 8)
  | accepted (b : BitVec 8)
  | taken (b : BitVec 8)
  | credit (e : CreditEvent)
  deriving DecidableEq

def ingressEdges (W : Nat) : Transducer (IngressPath W) IngressEdge IngressPathEvent where
  next s e := s.next e.1 e.2
  emit s e :=
    (s.userBytes e.1).map .user ++ (s.accepts e.1).map .accepted ++ (s.takes e.2).map .taken ++
      (e.1.toList.flatMap fun i => s.control.creditEvents (s.controlIn i)).map .credit

def users (es : List IngressPathEvent) : Nat := es.countP fun | .user _ => true | _ => false
def accepted (es : List IngressPathEvent) : Nat := es.countP fun | .accepted _ => true | _ => false
def taken (es : List IngressPathEvent) : Nat := es.countP fun | .taken _ => true | _ => false

def creditEventsOf (es : List IngressPathEvent) : List CreditEvent := es.filterMap fun | .credit e => some e | _ => none

section Events
variable (a b : List IngressPathEvent)

theorem users_append : users (a ++ b) = users a + users b := List.countP_append
theorem accepted_append : accepted (a ++ b) = accepted a + accepted b := List.countP_append
theorem taken_append : taken (a ++ b) = taken a + taken b := List.countP_append
theorem creditEventsOf_append : creditEventsOf (a ++ b) = creditEventsOf a ++ creditEventsOf b := List.filterMap_append

end Events

namespace IngressPath
variable {s : IngressPath W} {e : IngressEdge}

theorem users_emit : users ((ingressEdges W).emit s e) = (s.userBytes e.1).length := by
  simp [ingressEdges, users, List.countP_map, Function.comp_def]

theorem accepted_emit : accepted ((ingressEdges W).emit s e) = (s.accepts e.1).length := by
  simp [ingressEdges, accepted, List.countP_map, Function.comp_def]

theorem taken_emit : taken ((ingressEdges W).emit s e) = (s.takes e.2).length := by
  simp [ingressEdges, taken, List.countP_map, Function.comp_def]

theorem creditEventsOf_emit :
    creditEventsOf ((ingressEdges W).emit s e) = e.1.toList.flatMap fun i => s.control.creditEvents (s.controlIn i) := by
  simp [ingressEdges, creditEventsOf, List.filterMap_map]

/-- An edge away from `com_rst`, whose synchronisers take what there is to sample. -/
structure Edge (s : IngressPath W) (e : IngressEdge) : Prop where
  sampled : s.cdc.Sampled 0 (e.1.map s.cdcWrite) (e.2.map s.cdcRead)
  io : ∀ i ∈ e.1, s.control.comRst (s.controlIn i) = false
  clk : ∀ i ∈ e.2, (s.control.comRstHost || i.rst) = false

instance (s : IngressPath W) (e : IngressEdge) : Decidable (s.Edge e) :=
  decidable_of_iff
    (s.cdc.Sampled 0 (e.1.map s.cdcWrite) (e.2.map s.cdcRead) ∧
      (∀ i ∈ e.1, s.control.comRst (s.controlIn i) = false) ∧ ∀ i ∈ e.2, (s.control.comRstHost || i.rst) = false)
    ⟨fun ⟨hs, hi, hc⟩ => ⟨hs, hi, hc⟩, fun ⟨hs, hi, hc⟩ => ⟨hs, hi, hc⟩⟩

structure Inv (s : IngressPath W) : Prop where
  reset : s.fifoRst = true → s.cdc.IsReset ∧ s.fifoEnIo = 0
  fifo : s.fifoRst = false → ∃ words wm rm, s.cdc.At words wm rm

theorem Released.inv (h : s.Released) : s.Inv := by
  have hrst : s.fifoRst = true := by simp [fifoRst, h.fifoRstIo, h.fifoRstLogic]
  exact ⟨fun _ => ⟨h.cdc, h.fifoEnIo⟩, fun hno => absurd hrst (by simp [hno])⟩

theorem cdcWrite_rst {b : Bool} (hr : s.fifoRst = b) : ∀ i ∈ e.1.map s.cdcWrite, i.wrRst = b := by
  intro i hi
  obtain ⟨j, -, rfl⟩ := Option.mem_map.mp hi
  exact hr

theorem cdcRead_rst {b : Bool} (hr : s.fifoRst = b) : ∀ i ∈ e.2.map s.cdcRead, i.rdRst = b := by
  intro i hi
  obtain ⟨j, -, rfl⟩ := Option.mem_map.mp hi
  exact hr

theorem length_accepts_le : (s.accepts e.1).length ≤ (s.userBytes e.1).length := by
  cases hio : e.1 with
  | none => simp [accepts, DualClock.accepts]
  | some i =>
    cases hv : (s.ingressOut i).outValid with
    | false => simp [accepts, DualClock.accepts, cdcWrite, hv]
    | true =>
      simp only [accepts, DualClock.accepts, Option.map_some, userBytes, hv, if_true, List.length_singleton]
      split <;> simp

theorem accepts_off (hen : s.fifoEnIo = 0) : s.accepts e.1 = [] := by
  cases hio : e.1 <;> simp [accepts, DualClock.accepts, cdcWrite, fifoEn, hen]

/-- The FIFO stays in reset only while neither clock has an edge. -/
theorem Edge.still_reset (he : s.Edge e) (hr : (s.next e.1 e.2).fifoRst = true) :
    s.fifoRst = true ∧ (s.next e.1 e.2).fifoEnIo = s.fifoEnIo := by
  obtain ⟨io, clk⟩ := e
  cases io with
  | some i => simp [fifoRst, IngressPath.next, he.io i rfl, nextFifoRst] at hr
  | none =>
    cases clk with
    | some j => simp [fifoRst, IngressPath.next, he.clk j rfl, nextFifoRst] at hr
    | none => exact ⟨hr, rfl⟩

section Step
variable (h : s.Inv) (he : s.Edge e)
include h he

/-- The FIFO is a queue in reset and after it. -/
theorem Inv.contents_next :
    s.takes e.2 ++ (s.next e.1 e.2).cdc.contents = s.cdc.contents ++ s.accepts e.1 := by
  cases hr : s.fifoRst with
  | true =>
    obtain ⟨hreset, hen⟩ := h.reset hr
    have hnext : (s.next e.1 e.2).cdc.IsReset := hreset.next_rst (cdcWrite_rst hr) (cdcRead_rst hr)
    rw [accepts_off hen, hreset.contents_eq (by decide), hnext.contents_eq (by decide), takes, hreset.delivers_eq]
  | false =>
    obtain ⟨words, wm, rm, hat⟩ := h.fifo hr
    obtain ⟨wm', rm', hat', hread, -⟩ := hat.next he.sampled (cdcWrite_rst hr) (cdcRead_rst hr)
    rw [hat.contents_eq]
    have hnext : (s.next e.1 e.2).cdc.contents = (s.next e.1 e.2).cdc.inside _ rm'.read := hat'.contents_eq
    rw [hnext, hread]
    exact hat.next_inside (cdcRead_rst hr)

theorem Inv.next : (s.next e.1 e.2).Inv := by
  have hreset (hr : s.fifoRst = true) : (s.next e.1 e.2).cdc.IsReset :=
    (h.reset hr).1.next_rst (cdcWrite_rst hr) (cdcRead_rst hr)
  constructor
  · intro hr
    obtain ⟨hrst, hen⟩ := he.still_reset hr
    exact ⟨hreset hrst, hen.trans (h.reset hrst).2⟩
  · intro _
    cases hr : s.fifoRst with
    | true => exact ⟨[], _, _, (hreset hr).at (by decide)⟩
    | false =>
      obtain ⟨words, wm, rm, hat⟩ := h.fifo hr
      obtain ⟨wm', rm', hat', -⟩ := hat.next he.sampled (cdcWrite_rst hr) (cdcRead_rst hr)
      exact ⟨_, wm', rm', hat'⟩

end Step
end IngressPath
end Glip.Uart
