import Glip.Jtag.ConfigFsm
import Glip.Jtag.HostRequests

/-! Scans with pauses: the states in which the three state machines wait while nothing is
shifted, and the scans that a pause does not change. -/
namespace Glip.Jtag
open Foundation
variable {W : Nat}

namespace InputFsm

/-- The registers that later cycles depend on. -/
def seen (s : InputFsm W) : InputFsm W :=
  if s.inputState = .dropPacket then { s with bitCnt := 0, inRegData := 0, inRegCnt := 0, jtagReset := false } else s

/-- What holds of the registers from Capture-DR to Update-DR. -/
structure Settled (s : InputFsm W) : Prop where
  idle : s.inputState = .idle → s = ⟨.idle, 0, 0, 0, 0, false, false⟩
  header : s.inputState = .readPacketLength → s.accCnt = 0
  reset : s.inputState = .dropPacket → s.jtagReset = true → s.accCnt = 0

variable {s t : InputFsm W} {i : TapIn} {r : Bool}

theorem Settled.next (h : s.Settled) (hi : i.Inside) (ready : Bool) : (s.next s.jtagReset i ready).Settled := by
  obtain ⟨hu, hc⟩ := hi
  cases hr : s.jtagReset with
  | true => constructor <;> simp [InputFsm.next]
  | false =>
    cases hs : s.inputState with
    | idle =>
      obtain rfl := h.idle hs
      cases hshift : i.shift <;> constructor <;> simp [InputFsm.next, wires, hu, hshift]
    | readPacketLength =>
      have hacc := h.header hs
      constructor <;> simp [InputFsm.next, wires, hs, hu, hr] <;> grind
    | ignoreReadLength => constructor <;> simp [InputFsm.next, wires, hs, hu, hr] <;> grind
    | readPacket => constructor <;> simp [InputFsm.next, wires, hs, hu, hr] <;> grind
    | dropPacket => constructor <;> simp [InputFsm.next, wires, hs, hu, hc]

/-- What is dropped changes nothing. -/
theorem seen_drop (h : s.Settled) (hs : s.inputState = .dropPacket) (hi : i.Inside) :
    (s.next s.jtagReset i r).seen = s.seen ∧ s.offers i r = [] := by
  obtain ⟨hu, hc⟩ := hi
  constructor
  · cases hr : s.jtagReset with
    | true => simp [InputFsm.next, wires, seen, hs, hu, hc, h.reset hs hr]
    | false => simp [InputFsm.next, wires, seen, hs, hu, hc]
  · simp [offers, wires, hs, hu, hc]

theorem seen_state (s : InputFsm W) : s.seen.inputState = s.inputState := by
  rw [seen]
  split <;> rfl

theorem seen_accCnt (s : InputFsm W) : s.seen.accCnt = s.accCnt := by
  rw [seen]
  split <;> rfl

theorem seen_error (s : InputFsm W) : s.seen.error = s.error := by
  rw [seen]
  split <;> rfl

theorem seen_next (h : s.seen = t.seen) (hs : s.Settled) (ht : t.Settled) (hi : i.Inside) :
    (s.next s.jtagReset i r).seen = (t.next t.jtagReset i r).seen ∧ s.offers i r = t.offers i r := by
  have hstate : s.inputState = t.inputState := by rw [← seen_state s, h, seen_state]
  by_cases hdrop : s.inputState = .dropPacket
  · obtain ⟨hn, he⟩ := seen_drop (r := r) hs hdrop hi
    obtain ⟨hn', he'⟩ := seen_drop (r := r) ht (hstate ▸ hdrop) hi
    rw [hn, he, hn', he', h]
    exact ⟨rfl, rfl⟩
  · rw [seen, if_neg hdrop, seen, if_neg (hstate ▸ hdrop)] at h
    rw [h]
    exact ⟨rfl, rfl⟩

/-- While nothing is shifted the state machine waits before a scan, and when it drops. -/
theorem seen_wait (h : s.Settled) (hs : s.inputState = .idle ∨ s.inputState = .dropPacket) (hi : i.Inside)
    (hshift : i.shift = false) : (s.next s.jtagReset i r).seen = s.seen ∧ s.offers i r = [] := by
  rcases hs with hs | hs
  · obtain rfl := h.idle hs
    simp [InputFsm.next, wires, offers, hi.1, hshift]
  · exact seen_drop h hs hi

end InputFsm

namespace OutputFsm

/-- The registers that later cycles depend on. -/
def seen (s : OutputFsm W) : OutputFsm W :=
  match s.outputState with
  | .idle => { s with wordCnt := 0, packetCount := 0, inRegCnt := 0, free := 0, writeLengthReg := 0, readLengthReg := 0 }
  | .configDisc => { s with bitCnt := 0 }
  | _ => s

variable {s t : OutputFsm W} {i : OutputIn W}

theorem wires_seen (s : OutputFsm W) (i : OutputIn W) : s.seen.wires i = s.wires i := by
  cases hs : s.outputState <;> simp [seen, wires, hs]

theorem seen_next (h : s.seen = t.seen) : s.next i = t.next i ∧ (s.wires i).tdo = (t.wires i).tdo ∧ s.pops i = t.pops i := by
  have hwires : s.wires i = t.wires i := by rw [← wires_seen s, h, wires_seen]
  rw [next, next, pops, pops, hwires]
  exact ⟨rfl, rfl, rfl⟩

/-- While nothing is shifted the state machine waits before a scan, in the words of data and
when it leaves a scan to the configuration. -/
theorem seen_wait (hs : s.outputState = .idle ∨ s.outputState = .sendData ∨ s.outputState = .noData ∨ s.outputState = .configDisc)
    (hi : i.tap.Inside) (hshift : i.tap.shift = false) : (s.next i).seen = s.seen ∧ s.pops i = [] := by
  rcases hs with hs | hs | hs | hs <;> simp [next, wires, seen, pops, hs, hi.1, hshift]

end OutputFsm

namespace ConfigFsm

/-- The logic reset is over before the state machine waits for the end of a scan. -/
def Settled (s : ConfigFsm W) : Prop := s.configState = .idle ∨ s.configState = .waitForUpdate → s.ctrlLogicRst = false

variable {numWords : Nat} {s : ConfigFsm W} {i : TapIn}

theorem settled_next (hi : i.Inside) : (s.next numWords i).Settled := by
  rw [Settled, ConfigFsm.next, if_neg (by simp [hi.1])]
  cases hs : s.configState <;> simp [wires, hs] <;> grind

theorem next_wait (h : s.Settled) (hs : s.configState = .idle ∨ s.configState = .waitForUpdate) (hi : i.Inside)
    (hshift : i.shift = false) : s.next numWords i = s := by
  have hrst := h hs
  obtain ⟨state, bitCnt, inReg, dataTransfer, configDiscovery, ctrlLogicRst⟩ := s
  dsimp only at hs hrst
  rcases hs with rfl | rfl <;> simp [ConfigFsm.next, wires, hi.1, hshift, hrst]

end ConfigFsm

inductive TargetEvent (W : Nat)
  | accepted (word : BitVec W)
  | popped (word : BitVec W)
  | tdo (bit : Bool)
  | ctrlLogicRst
  deriving DecidableEq

/-- The whole target over the cycles of a scan, with the words that it accepts for the in FIFO
and takes out of the out FIFO, the bits of `tdo` while bits are shifted, and the cycles of
`ctrl_logic_rst`. -/
def targetEvents (numWords : Nat) (f : FifoSide W) :
    Transducer (ConfigFsm W × Target W) (TapIn × Nat) (TargetEvent W) where
  next := (toplevel numWords f).next
  emit s i :=
    (s.2.input.offers i.1 (f.inReady i.2)).map .accepted ++ (s.2.output.pops (s.2.outputIn f i)).map .popped ++
      ((toplevel numWords f).emit s i).map .tdo ++ if s.1.ctrlLogicRst then [.ctrlLogicRst] else []

structure Waiting (s : ConfigFsm W × Target W) : Prop where
  input : s.2.input.inputState = .idle ∨ s.2.input.inputState = .dropPacket
  output : s.2.output.outputState = .idle ∨ s.2.output.outputState = .sendData ∨
    s.2.output.outputState = .noData ∨ s.2.output.outputState = .configDisc
  config : s.1.configState = .idle ∨ s.1.configState = .waitForUpdate

instance (s : ConfigFsm W × Target W) : Decidable (Waiting s) :=
  decidable_of_iff
    ((s.2.input.inputState = .idle ∨ s.2.input.inputState = .dropPacket) ∧
      (s.2.output.outputState = .idle ∨ s.2.output.outputState = .sendData ∨ s.2.output.outputState = .noData ∨
        s.2.output.outputState = .configDisc) ∧ (s.1.configState = .idle ∨ s.1.configState = .waitForUpdate))
    ⟨fun ⟨hi, ho, hc⟩ => ⟨hi, ho, hc⟩, fun ⟨hi, ho, hc⟩ => ⟨hi, ho, hc⟩⟩

structure SameScan (s t : ConfigFsm W × Target W) : Prop where
  settled : s.2.input.Settled ∧ t.2.input.Settled ∧ s.1.Settled
  config : s.1 = t.1
  input : s.2.input.seen = t.2.input.seen
  output : s.2.output.seen = t.2.output.seen
  popped : s.2.popped = t.2.popped

namespace SameScan
variable {numWords : Nat} {f : FifoSide W} {s t : ConfigFsm W × Target W} {i : TapIn × Nat}

theorem outputIn_eq (h : SameScan s t) : s.2.outputIn f i = t.2.outputIn f i := by
  have herror : s.2.input.error = t.2.input.error := by rw [← InputFsm.seen_error, h.input, InputFsm.seen_error]
  have hacc : s.2.input.accCnt = t.2.input.accCnt := by rw [← InputFsm.seen_accCnt, h.input, InputFsm.seen_accCnt]
  rw [Target.outputIn, Target.outputIn, herror, hacc, h.popped]

theorem read (h : SameScan s t) (hi : i.1.Inside) :
    SameScan ((targetEvents numWords f).next s i) ((targetEvents numWords f).next t i) ∧
      (targetEvents numWords f).emit s i = (targetEvents numWords f).emit t i := by
  obtain ⟨hs, ht, -⟩ := h.settled
  obtain ⟨hinput, hoffers⟩ := InputFsm.seen_next (r := f.inReady i.2) h.input hs ht hi
  have ho : s.2.outputIn f i = t.2.outputIn f i := h.outputIn_eq
  obtain ⟨houtput, htdo, hpops⟩ := OutputFsm.seen_next (i := t.2.outputIn f i) h.output
  constructor
  · refine ⟨⟨hs.next hi _, ht.next hi _, ConfigFsm.settled_next hi⟩, ?_, hinput, ?_, ?_⟩
    · exact congrArg (fun c => c.next numWords i.1) h.config
    · rw [← ho] at houtput
      exact congrArg OutputFsm.seen (houtput.trans (congrArg t.2.output.next ho))
    · rw [← ho] at hpops
      exact congrArg₂ (fun n (ws : List (BitVec W)) => n + ws.length) h.popped (hpops.trans (congrArg t.2.output.pops ho))
  · simp only [targetEvents, toplevel]
    rw [hoffers, h.config, ho, hpops, htdo]

theorem wait (h : SameScan s t) (hi : i.1.Inside) (hshift : i.1.shift = false) (hw : Waiting s) :
    SameScan ((targetEvents numWords f).next s i) t ∧ (targetEvents numWords f).emit s i = [] := by
  obtain ⟨hs, ht, hc⟩ := h.settled
  obtain ⟨hinput, hoffers⟩ := InputFsm.seen_wait (r := f.inReady i.2) hs hw.input hi hshift
  obtain ⟨houtput, hpops⟩ := OutputFsm.seen_wait (i := s.2.outputIn f i) hw.output hi hshift
  constructor
  · refine ⟨⟨hs.next hi _, ht, ConfigFsm.settled_next hi⟩, ?_, hinput.trans h.input, houtput.trans h.output, ?_⟩
    · exact (ConfigFsm.next_wait hc hw.config hi hshift).trans h.config
    · exact (congrArg (fun ws : List (BitVec W) => s.2.popped + ws.length) hpops).trans h.popped
  · simp only [targetEvents, toplevel]
    rw [hoffers, hpops, hc hw.config, hshift]
    rfl

end SameScan

/-- A scan after an update, with pauses only where all three state machines wait: the target
does what it does in the scan without its pauses. -/
theorem pause_tolerated (numWords : Nat) (f : FifoSide W) (s₀ : ConfigFsm W × Target W) (tdi tdi' : Bool) (k k' : Nat)
    (cs : List (TapIn × Nat)) (hcs : ∀ c ∈ cs, c.1.Inside) :
    let m := targetEvents numWords f
    let s := m.after s₀ [(.updateDr tdi, k), (.captureDr tdi', k')]
    let bits := cs.filter (·.1.shift)
    (∀ j (hj : j < cs.length), cs[j].1.shift = false → Waiting (m.after s (cs.take j))) →
      m.emitted s cs = m.emitted s bits ∧ (m.after s cs).2.input.accCnt = (m.after s bits).2.input.accCnt := by
  intro m s bits hwait
  have hstart : s.2.input = ⟨.idle, 0, 0, 0, 0, false, false⟩ := by
    simp [s, m, targetEvents, toplevel, target, InputFsm.next, InputFsm.wires, TapIn.updateDr, TapIn.captureDr]
  have hconfig : s.1 = .cleared W := by
    simp [s, m, targetEvents, toplevel, ConfigFsm.next, ConfigFsm.wires, ConfigFsm.cleared, TapIn.updateDr, TapIn.captureDr]
  have hsettled : s.2.input.Settled := by
    rw [hstart]
    exact ⟨fun _ => rfl, by simp, by simp⟩
  have hsame : SameScan s s := ⟨⟨hsettled, hsettled, by rw [hconfig]; exact fun _ => rfl⟩, rfl, rfl, rfl, rfl⟩
  obtain ⟨hsame, hemitted⟩ := Transducer.waits (m := m) (R := SameScan) (P := Waiting) cs
    (fun i hi hshift s t h hw => h.wait (hcs i hi) hshift hw) (fun i hi _ s t h => h.read (hcs i hi)) hsame hwait
  refine ⟨hemitted, ?_⟩
  rw [← InputFsm.seen_accCnt, hsame.input, InputFsm.seen_accCnt]

section Runs

private def streaming : FifoSide 8 := ⟨fun _ => true, fun _ => true, fun k => BitVec.ofNat 8 (0xC0 + k), fun _ => 0⟩

private def start : ConfigFsm 8 × Target 8 :=
  (.cleared 8, ⟨⟨.dropPacket, 0, 0, 0, 0, false, false⟩, ⟨.idle, 0, 0, 0, 0, 0, 0, 0, 0⟩, 0⟩)

private def pausedScan (ws : List (BitVec 8)) (bits : Nat) : List (TapIn × Nat) :=
  ((ws.flatMap shiftWord).take bits ++ List.replicate 3 (TapIn.quiet true) ++ (ws.flatMap shiftWord).drop bits).map (·, 0)

private theorem inside_pausedScan (ws : List (BitVec 8)) (bits : Nat) : ∀ c ∈ pausedScan ws bits, c.1.Inside := by
  intro c hc
  obtain ⟨i, hi, rfl⟩ := List.mem_map.mp hc
  rcases List.mem_append.mp hi with hi | hi
  · rcases List.mem_append.mp hi with hi | hi
    · exact inside_shiftWords ws i (List.mem_of_mem_take hi)
    · rw [List.eq_of_mem_replicate hi]
      exact ⟨rfl, rfl⟩
  · exact inside_shiftWords ws i (List.mem_of_mem_drop hi)

set_option maxRecDepth 8000 in
/-- A pause in the word that is written: its cycles are taken for bits. -/
theorem pause_changes_word :
    let m := targetEvents 3 streaming
    let s := m.after start [(.updateDr false, 0), (.captureDr false, 0)]
    let cs := pausedScan [1, 0, 0x41, 0, 0] 19
    cs.filter (·.1.shift) = (([1, 0, 0x41, 0, 0] : List (BitVec 8)).flatMap shiftWord).map (·, 0) ∧
      .accepted 0x41 ∈ m.emitted s (cs.filter (·.1.shift)) ∧ .accepted 0x39 ∈ m.emitted s cs ∧
      m.emitted s cs ≠ m.emitted s (cs.filter (·.1.shift)) := by
  decide

set_option maxRecDepth 8000 in
/-- A pause in the word that is read. -/
theorem pause_tolerated_read :
    let m := targetEvents 3 streaming
    let s := m.after start [(.updateDr false, 0), (.captureDr false, 0)]
    let cs := pausedScan [0, 1, 0, 0, 0] 19
    m.emitted s cs = m.emitted s (cs.filter (·.1.shift)) ∧ .popped 0xC0 ∈ m.emitted s cs := by
  intro m s cs
  have hwaiting : ∀ j (hj : j < cs.length), cs[j].1.shift = false → Waiting (m.after s (cs.take j)) := by
    decide
  have htolerated := pause_tolerated 3 streaming start false false 0 0 cs (inside_pausedScan _ _) hwaiting
  exact ⟨htolerated.1, by decide⟩

end Runs
end Glip.Jtag
