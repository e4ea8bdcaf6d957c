import Glip.Fifo.DualClockQueue

/-! glip_cypressfx2_toplevel.v over the edges of `fx2_ifclk` and `clk`. The depth of its FIFOs is `2 ^ aw`. -/
namespace Glip.CypressFx2
open Fifo Foundation
variable {aw : Nat} {α : Type} [OfNat α 0]

inductive Precedence
  | write | read
  deriving DecidableEq, Repr

inductive Fifoadr
  | epout | epin
  deriving DecidableEq, Repr

structure Toplevel (aw : Nat) (α : Type) where
  precedence : Precedence
  /-- wide enough for `FORCE_SEND_TIMEOUT` -/
  counter : Nat
  /-- `out_fifo_cdc`, written on `clk` -/
  egress : DualClock aw α
  /-- `in_fifo_cdc`, written on `fx2_ifclk` -/
  ingress : DualClock aw α

structure Flags where
  flagaN : Bool
  flagcN : Bool
  deriving DecidableEq

def Flags.epoutFifoEmpty (f : Flags) : Bool := !f.flagaN

def Flags.epinFifoFull (f : Flags) : Bool := !f.flagcN

/-- The inputs at an edge of `fx2_ifclk`, and what the synchronisers take. -/
structure IfEdge (aw : Nat) (α : Type) where
  intRst : Bool
  flags : Flags
  fd : α
  ingressRdAddrGray : BitVec aw
  egressWrAddrGray : BitVec aw

structure ClkEdge (aw : Nat) (α : Type) where
  intRst : Bool
  fifoInReady : Bool
  fifoOutValid : Bool
  fifoOutData : α
  ingressWrAddrGray : BitVec aw
  egressRdAddrGray : BitVec aw

def ClkEdge.ingressRead (c : ClkEdge aw α) : ReadEdge aw := ⟨c.intRst, c.fifoInReady, c.ingressWrAddrGray⟩

def ClkEdge.egressWrite (c : ClkEdge aw α) : WriteEdge aw α :=
  ⟨c.intRst, c.fifoOutValid, c.fifoOutData, c.egressRdAddrGray⟩

structure BusWires where
  rd : Bool
  wr : Bool
  pktend : Bool
  fifoadr : Fifoadr
  intFifoOutReady : Bool
  intFifoInValid : Bool
  nxtPrecedence : Precedence
  nxtCounter : Nat
  deriving DecidableEq

namespace Toplevel
variable (timeout : Nat) (s : Toplevel aw α) (f : Flags)

def canWrite : Bool := !f.epinFifoFull && !s.egress.empty

def canRead : Bool := !f.epoutFifoEmpty && !s.ingress.full

def flush : Bool := s.counter == 1 && !s.canWrite f

/-- The parameter `FORCE_SEND_TIMEOUT` is `timeout`. -/
def wires (intRst : Bool) : BusWires :=
  let w : BusWires := ⟨false, false, false, .epout, false, false, .write, s.counter - 1⟩
  if intRst then w
  else if s.flush f then { w with pktend := true, fifoadr := .epin }
  else if s.canWrite f && (s.precedence == .write || !s.canRead f) then
    { w with wr := true, intFifoOutReady := true, fifoadr := .epin, nxtCounter := timeout, nxtPrecedence := .read }
  else if s.canRead f && (s.precedence == .read || !s.canWrite f) then
    { w with rd := true, intFifoInValid := true, nxtPrecedence := .write }
  else w

omit [OfNat α 0] in
/-- The four things that a cycle does. -/
theorem wires_cases :
    (s.counter = 1 ∧ s.canWrite f = false ∧
        s.wires timeout f false = ⟨false, false, true, .epin, false, false, .write, s.counter - 1⟩) ∨
      (s.canWrite f = true ∧ (s.precedence = .write ∨ s.canRead f = false) ∧
        s.wires timeout f false = ⟨false, true, false, .epin, true, false, .read, timeout⟩) ∨
      (s.canRead f = true ∧ (s.precedence = .read ∨ s.canWrite f = false) ∧ (s.counter = 1 → s.canWrite f = true) ∧
        s.wires timeout f false = ⟨true, false, false, .epout, false, true, .write, s.counter - 1⟩) ∨
      (s.canRead f = false ∧ s.canWrite f = false ∧ s.counter ≠ 1 ∧
        s.wires timeout f false = ⟨false, false, false, .epout, false, false, .write, s.counter - 1⟩) := by
  have hturn : s.precedence = .write ∨ s.precedence = .read := by cases s.precedence <;> simp
  by_cases hcount : s.counter = 1 <;> cases hw : s.canWrite f <;> cases hr : s.canRead f <;>
    rcases hturn with hp | hp <;> simp [wires, flush, hcount, hw, hr, hp]

variable (io : Option (IfEdge aw α)) (clk : Option (ClkEdge aw α))

def ingressWrite (i : IfEdge aw α) : WriteEdge aw α :=
  ⟨i.intRst, (s.wires timeout i.flags i.intRst).intFifoInValid, i.fd, i.ingressRdAddrGray⟩

def egressRead (i : IfEdge aw α) : ReadEdge aw :=
  ⟨i.intRst, (s.wires timeout i.flags i.intRst).intFifoOutReady, i.egressWrAddrGray⟩

/-- The registers after an edge of one of the clocks, or of both at a time. -/
def next : Toplevel aw α where
  precedence := match io with
    | some i => if i.intRst then .write else (s.wires timeout i.flags i.intRst).nxtPrecedence
    | none => s.precedence
  counter := match io with
    | some i => if i.intRst then 0 else (s.wires timeout i.flags i.intRst).nxtCounter
    | none => s.counter
  ingress := s.ingress.next 0 (io.map (s.ingressWrite timeout)) (clk.map ClkEdge.ingressRead)
  egress := s.egress.next 0 (clk.map ClkEdge.egressWrite) (io.map (s.egressRead timeout))

structure IsReset (s : Toplevel aw α) : Prop where
  precedence : s.precedence = .write
  counter : s.counter = 0
  ingress : s.ingress.IsReset
  egress : s.egress.IsReset

theorem isReset_next {i : IfEdge aw α} {c : ClkEdge aw α} (hi : i.intRst = true) (hc : c.intRst = true) :
    (s.next timeout (some i) (some c)).IsReset := by
  constructor
  case ingress => exact DualClock.isReset_next hi hc
  case egress => exact DualClock.isReset_next hc hi
  all_goals simp [Toplevel.next, hi]

end Toplevel

inductive BusEvent (α : Type)
  | read (word : α)
  | wrote (word : α)
  | pktend
  | took (word : α)
  | gave (word : α)
  deriving DecidableEq

abbrev Edges (aw : Nat) (α : Type) : Type := Option (IfEdge aw α) × Option (ClkEdge aw α)

namespace Toplevel
variable (timeout : Nat) (s : Toplevel aw α)

/-- The bus in a cycle of `fx2_ifclk`: `fx2_fd` carries the word that is read or the one that is written. -/
def busEvents (i : IfEdge aw α) : List (BusEvent α) :=
  let w := s.wires timeout i.flags i.intRst
  (if w.rd then [.read i.fd] else []) ++ (if w.wr then [.wrote s.egress.prefetch.dout] else []) ++
    if w.pktend then [.pktend] else []

def clkEvents (c : ClkEdge aw α) : List (BusEvent α) :=
  (if c.fifoOutValid && !s.egress.full then [.took c.fifoOutData] else []) ++
    if c.fifoInReady && !s.ingress.empty then [.gave s.ingress.prefetch.dout] else []

end Toplevel

def toplevelEdges (timeout : Nat) : Transducer (Toplevel aw α) (Edges aw α) (BusEvent α) where
  next s e := s.next timeout e.1 e.2
  emit s e := e.1.toList.flatMap (s.busEvents timeout) ++ e.2.toList.flatMap s.clkEvents

/-- An edge without `int_rst` at which the synchronisers take what there is to sample. -/
def Toplevel.Allows (timeout : Nat) (s : Toplevel aw α) (e : Edges aw α) : Prop :=
  s.ingress.Sampled 0 (e.1.map (s.ingressWrite timeout)) (e.2.map ClkEdge.ingressRead) ∧
    s.egress.Sampled 0 (e.2.map ClkEdge.egressWrite) (e.1.map (s.egressRead timeout)) ∧
    (∀ i ∈ e.1, i.intRst = false) ∧ ∀ c ∈ e.2, c.intRst = false

instance (timeout : Nat) (s : Toplevel aw α) (e : Edges aw α) : Decidable (s.Allows timeout e) :=
  inferInstanceAs (Decidable (_ ∧ _ ∧ _ ∧ _))

def Toplevel.Run (timeout : Nat) (s : Toplevel aw α) (es : List (Edges aw α)) : Prop :=
  (toplevelEdges timeout).Each (Toplevel.Allows timeout) s es

instance (timeout : Nat) (s : Toplevel aw α) (es : List (Edges aw α)) : Decidable (s.Run timeout es) :=
  inferInstanceAs (Decidable (Transducer.Each _ _ s es))

end Glip.CypressFx2
