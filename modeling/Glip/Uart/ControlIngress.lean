import Glip.Foundation.Transducer
import Glip.Uart.HostMessages

/-! The state machine of glip_uart_control_ingress.v, which takes the bytes from
the host apart, against the messages of the host. -/
namespace Glip.Uart
open Foundation

inductive IngressState where
  | passthrough
  | stMatch
  | credit
  deriving DecidableEq

structure Ingress where
  state : IngressState
  creditFirst : Nat
  deriving DecidableEq

structure IngressIn where
  rst : Bool
  inData : UInt8
  inValid : Bool
  outReady : Bool

/-- The outputs of `glip_uart_control_ingress`; `creditVal` is a don't care unless `creditEn` is high. -/
structure IngressOut where
  inReady : Bool
  outData : UInt8
  outValid : Bool
  transfer : Bool
  creditEn : Bool
  creditVal : Nat
  logicRstEn : Bool
  logicRstVal : Bool
  comRstEn : Bool
  comRstVal : Bool
  fsmError : Bool
  error : Bool

structure IngressLogic where
  nxt : Ingress
  outValid : Bool
  fsmError : Bool
  logicRstEn : Bool
  logicRstVal : Bool
  comRstEn : Bool
  comRstVal : Bool
  creditEn : Bool
  creditVal : Nat

namespace Ingress

def defaults (r : Ingress) : IngressLogic := ⟨r, false, false, false, false, false, false, false, 0⟩

def comb (r : Ingress) (i : IngressIn) : IngressLogic :=
  let inDataMatch := i.inData = marker
  if i.inValid then
    match r.state with
    | .passthrough =>
      if inDataMatch then { r.defaults with nxt := { r with state := .stMatch } }
      else { r.defaults with outValid := true }
    | .stMatch =>
      if ¬bit 0 i.inData.toNat then
        { r.defaults with
          nxt := { r with state := .passthrough }, outValid := true, fsmError := !inDataMatch }
      else if ¬bit 7 i.inData.toNat then
        { r.defaults with nxt := ⟨.credit, slice 6 1 i.inData.toNat⟩ }
      else
        { r.defaults with
          nxt := { r with state := .passthrough }
          logicRstEn := !bit 2 i.inData.toNat, comRstEn := bit 2 i.inData.toNat
          logicRstVal := bit 1 i.inData.toNat, comRstVal := bit 1 i.inData.toNat }
    | .credit =>
      { r.defaults with
        nxt := { r with state := .passthrough }
        creditVal := concat 8 r.creditFirst i.inData.toNat, creditEn := true }
  else r.defaults

def out (r : Ingress) (i : IngressIn) : IngressOut :=
  let c := r.comb i
  { inReady := true, outData := i.inData, outValid := c.outValid
    transfer := c.outValid && i.outReady
    creditEn := c.creditEn, creditVal := c.creditVal
    logicRstEn := c.logicRstEn, logicRstVal := c.logicRstVal
    comRstEn := c.comRstEn, comRstVal := c.comRstVal
    fsmError := c.fsmError, error := !i.outReady || c.fsmError }

def next (r : Ingress) (i : IngressIn) : Ingress :=
  let c := r.comb i
  if i.rst then { c.nxt with state := .passthrough } else c.nxt

end Ingress

inductive IngressEvent where
  | word (b : UInt8)
  | credit (val : Nat)
  | logicReset (value : Bool)
  | comReset (value : Bool)
  | fsmError
  deriving DecidableEq

def IngressOut.events (o : IngressOut) : List IngressEvent :=
  (if o.fsmError then [.fsmError] else []) ++
  (if o.outValid then [.word o.outData] else []) ++
  (if o.creditEn then [.credit o.creditVal] else []) ++
  (if o.logicRstEn then [.logicReset o.logicRstVal] else []) ++
  if o.comRstEn then [.comReset o.comRstVal] else []

def granted : List IngressEvent → Nat
  | [] => 0
  | .credit val :: es => val + granted es
  | _ :: es => granted es

@[simp] theorem granted_append (a b : List IngressEvent) : granted (a ++ b) = granted a + granted b := by
  induction a with
  | nil => simp [granted]
  | cons e a ih => cases e <;> simp [granted, ih, Nat.add_assoc]

theorem granted_eq_zero {es : List IngressEvent} (h : ∀ val, .credit val ∉ es) : granted es = 0 := by
  induction es with
  | nil => rfl
  | cons e es ih =>
    have ih := ih fun val hval => h val (.tail e hval)
    cases e with
    | credit val => exact absurd (.head es) (h val)
    | word | logicReset | comReset | fsmError => exact ih

def HostMessage.event : HostMessage → IngressEvent
  | .word b => .word b
  | .credit add => .credit add.val
  | .logicReset value => .logicReset value
  | .comReset value => .comReset value

def ingressCycles : Transducer Ingress IngressIn IngressEvent :=
  ⟨Ingress.next, fun r i => (r.out i).events⟩

def IngressIn.byte (i : IngressIn) : Option UInt8 := if i.inValid then some i.inData else none

def IngressIn.ofByte (b : UInt8) : IngressIn := ⟨false, b, true, true⟩

def ingressBytes : Transducer Ingress UInt8 IngressEvent :=
  ⟨fun r b => r.next (.ofByte b), fun r b => (r.out (.ofByte b)).events⟩

private theorem comb_idle (r : Ingress) (i : IngressIn) (h : i.inValid = false) :
    r.comb i = r.defaults := by
  simp [Ingress.comb, h]

private theorem comb_congr (r : Ingress) (i j : IngressIn) (hd : i.inData = j.inData)
    (hv : i.inValid = j.inValid) : r.comb i = r.comb j := by
  simp only [Ingress.comb, hd, hv]

/-- Cycles without a byte do nothing, so the machine can be read byte by byte. -/
theorem ingress_sampled (r : Ingress) (ins : List IngressIn) (hrst : ∀ i ∈ ins, i.rst = false) :
    ingressCycles.after r ins = ingressBytes.after r (ins.filterMap IngressIn.byte) ∧
      ingressCycles.emitted r ins = ingressBytes.emitted r (ins.filterMap IngressIn.byte) := by
  apply Transducer.sampled
  · intro i hi hb s
    have hv : i.inValid = false := by simpa [IngressIn.byte] using hb
    have hn : (ingressCycles.next s i) = s := by
      simp [ingressCycles, Ingress.next, hrst i hi, comb_idle s i hv, Ingress.defaults]
    have he : (ingressCycles.emit s i) = [] := by
      simp [ingressCycles, Ingress.out, comb_idle s i hv, Ingress.defaults, IngressOut.events]
    exact ⟨hn, he⟩
  · intro i hi b hb s
    obtain ⟨hv, hd⟩ : i.inValid = true ∧ i.inData = b := by simpa [IngressIn.byte] using hb
    have hc := comb_congr s i (.ofByte b) hd hv
    have hr := hrst i hi
    constructor
    · simp only [ingressCycles, ingressBytes, Ingress.next, hc, hr]
      rfl
    · simp only [ingressCycles, ingressBytes, Ingress.out, hc, IngressOut.events, hd]
      rfl

private theorem tranche_lt (t : Tranche) : t.val < 2 ^ 14 := by
  have := t.le_max
  simp only [maxTranche] at this
  omega

private theorem creditFirst_toNat (t : Tranche) :
    (creditFirst t.val).toNat = 2 * (t.val / 256) + 1 := by
  have := tranche_lt t
  rw [creditFirst, or_one_shiftLeft_one, Nat.shiftRight_eq_div_pow, UInt8.toNat_ofNat']
  omega

theorem creditFirst_bits (t : Tranche) :
    bit 0 (creditFirst t.val).toNat = true ∧ bit 7 (creditFirst t.val).toNat = false := by
  have := tranche_lt t
  simp only [creditFirst_toNat, bit_eq, decide_eq_true_eq, decide_eq_false_iff_not]
  omega

private theorem creditSecond_toNat (n : Nat) : (creditSecond n).toNat = n % 256 := by
  rw [creditSecond, and_ff, UInt8.toNat_ofNat']
  omega

section Bytes
variable (r : Ingress) (b : UInt8)

/-! What the state machine does with one byte, by state and kind of byte. -/

theorem passthrough_marker (hr : r.state = .passthrough) :
    ingressBytes.next r marker = { r with state := .stMatch } ∧ ingressBytes.emit r marker = [] := by
  simp [ingressBytes, Ingress.next, Ingress.out, Ingress.comb, Ingress.defaults, IngressIn.ofByte,
    IngressOut.events, hr]

theorem passthrough_data (hr : r.state = .passthrough) (hb : b ≠ marker) :
    ingressBytes.next r b = r ∧ ingressBytes.emit r b = [.word b] := by
  simp [ingressBytes, Ingress.next, Ingress.out, Ingress.comb, Ingress.defaults, IngressIn.ofByte,
    IngressOut.events, hr, hb]

theorem match_marker (hr : r.state = .stMatch) :
    ingressBytes.next r marker = { r with state := .passthrough } ∧
      ingressBytes.emit r marker = [.word marker] := by
  have h0 : bit 0 marker.toNat = false := by decide
  simp [ingressBytes, Ingress.next, Ingress.out, Ingress.comb, Ingress.defaults, IngressIn.ofByte,
    IngressOut.events, hr, h0]

theorem match_credit (hr : r.state = .stMatch) (h0 : bit 0 b.toNat = true) (h7 : bit 7 b.toNat = false) :
    ingressBytes.next r b = ⟨.credit, slice 6 1 b.toNat⟩ ∧ ingressBytes.emit r b = [] := by
  simp [ingressBytes, Ingress.next, Ingress.out, Ingress.comb, Ingress.defaults, IngressIn.ofByte,
    IngressOut.events, hr, h0, h7]

theorem match_reset (hr : r.state = .stMatch) (h0 : bit 0 b.toNat = true) (h7 : bit 7 b.toNat = true) :
    ingressBytes.next r b = { r with state := .passthrough } ∧ ingressBytes.emit r b =
      [if bit 2 b.toNat then .comReset (bit 1 b.toNat) else .logicReset (bit 1 b.toNat)] := by
  cases h2 : bit 2 b.toNat <;>
    simp [ingressBytes, Ingress.next, Ingress.out, Ingress.comb, Ingress.defaults, IngressIn.ofByte,
      IngressOut.events, hr, h0, h7, h2]

theorem credit_second (hr : r.state = .credit) :
    ingressBytes.next r b = { r with state := .passthrough } ∧
      ingressBytes.emit r b = [.credit (concat 8 r.creditFirst b.toNat)] := by
  simp [ingressBytes, Ingress.next, Ingress.out, Ingress.comb, Ingress.defaults, IngressIn.ofByte,
    IngressOut.events, hr]

end Bytes

section Messages
variable (r : Ingress)

theorem decode_word (b : UInt8) (hr : r.state = .passthrough) :
    (ingressBytes.after r (wordBytes b)).state = .passthrough ∧
      ingressBytes.emitted r (wordBytes b) = [.word b] := by
  by_cases hb : b = marker
  · obtain ⟨hn₁, he₁⟩ := passthrough_marker r hr
    obtain ⟨hn₂, he₂⟩ := match_marker { r with state := .stMatch } rfl
    simp [wordBytes, hb, hn₁, he₁, hn₂, he₂]
  · obtain ⟨hn, he⟩ := passthrough_data r b hr hb
    simp [wordBytes, hb, hn, he, hr]

private theorem decode_reset (b : UInt8) (hr : r.state = .passthrough)
    (h0 : bit 0 b.toNat = true) (h7 : bit 7 b.toNat = true) :
    (ingressBytes.after r [marker, b]).state = .passthrough ∧ ingressBytes.emitted r [marker, b] =
      [if bit 2 b.toNat then .comReset (bit 1 b.toNat) else .logicReset (bit 1 b.toNat)] := by
  obtain ⟨hn₁, he₁⟩ := passthrough_marker r hr
  obtain ⟨hn₂, he₂⟩ := match_reset { r with state := .stMatch } b rfl h0 h7
  simp [hn₁, he₁, hn₂, he₂]

theorem decode_credit (t : Tranche) (hr : r.state = .passthrough) :
    (ingressBytes.after r (creditBytes t.val)).state = .passthrough ∧
      ingressBytes.emitted r (creditBytes t.val) = [.credit t.val] := by
  have hlt := tranche_lt t
  have hf := creditFirst_toNat t
  have hs := creditSecond_toNat t.val
  obtain ⟨h0, h7⟩ := creditFirst_bits t
  have hval : concat 8 (slice 6 1 (creditFirst t.val).toNat) (creditSecond t.val).toNat = t.val := by
    simp only [concat, slice, hf, hs]
    omega
  obtain ⟨hn₁, he₁⟩ := passthrough_marker r hr
  obtain ⟨hn₂, he₂⟩ := match_credit { r with state := .stMatch } _ rfl h0 h7
  obtain ⟨hn₃, he₃⟩ := credit_second ⟨.credit, slice 6 1 (creditFirst t.val).toNat⟩ (creditSecond t.val) rfl
  simp [creditBytes, hn₁, he₁, hn₂, he₂, hn₃, he₃, hval]

end Messages

theorem decode_message (x : HostMessage) (r : Ingress) (hr : r.state = .passthrough) :
    (ingressBytes.after r x.bytes).state = .passthrough ∧ ingressBytes.emitted r x.bytes = [x.event] := by
  cases x with
  | word b => exact decode_word r b hr
  | credit t => exact decode_credit r t hr
  | logicReset v => cases v <;> exact decode_reset r _ hr (by decide) (by decide)
  | comReset v => cases v <;> exact decode_reset r _ hr (by decide) (by decide)

/-- Whatever the host sends, cut into clock cycles in any way, the state machine
tells the rest of the target exactly the messages, in their order and with their
values, and rests in `passthrough` after each of them. -/
theorem ingress_decodes_host_messages (ms : List HostMessage) (r : Ingress)
    (hr : r.state = .passthrough) (ins : List IngressIn) (hrst : ∀ i ∈ ins, i.rst = false)
    (hb : ins.filterMap IngressIn.byte = ms.flatMap HostMessage.bytes) :
    ingressCycles.emitted r ins = ms.map HostMessage.event ∧
      .fsmError ∉ ingressCycles.emitted r ins ∧
      ∀ k pre, pre <+: ins → pre.filterMap IngressIn.byte = (ms.take k).flatMap HostMessage.bytes →
        (ingressCycles.after r pre).state = .passthrough ∧
          ingressCycles.emitted r pre = (ms.take k).map HostMessage.event := by
  have run (ms : List HostMessage) (ins : List IngressIn) (hrst : ∀ i ∈ ins, i.rst = false)
      (hb : ins.filterMap IngressIn.byte = ms.flatMap HostMessage.bytes) :
      (ingressCycles.after r ins).state = .passthrough ∧
        ingressCycles.emitted r ins = ms.map HostMessage.event := by
    rw [(ingress_sampled r ins hrst).1, (ingress_sampled r ins hrst).2, hb]
    exact Transducer.decodes (P := fun r => r.state = .passthrough) decode_message ms r hr
  have he := (run ms ins hrst hb).2
  refine ⟨he, ?_, fun k pre hpre hk => run (ms.take k) pre (fun i hi => hrst i (hpre.subset hi)) hk⟩
  rw [he]
  intro hmem
  obtain ⟨x, -, hx⟩ := List.mem_map.mp hmem
  cases x <;> cases hx

/-- Data equal to the marker, the largest credit whose low byte is the marker and
a reset, with idle cycles between their bytes. -/
theorem ingress_decodes_host_messages_mixed :
    let ms : List HostMessage :=
      [.word 0xfe, .credit ⟨0x3ffe, by decide, by decide⟩, .comReset true, .word 0x41]
    let cycle (b : UInt8) : List IngressIn := [⟨false, 0x7, false, true⟩, ⟨false, b, true, false⟩]
    ingressCycles.emitted ⟨.passthrough, 0⟩ ((ms.flatMap HostMessage.bytes).flatMap cycle) =
      [.word 0xfe, .credit 0x3ffe, .comReset true, .word 0x41] :=
  (ingress_decodes_host_messages
    [.word 0xfe, .credit ⟨0x3ffe, by decide, by decide⟩, .comReset true, .word 0x41]
    ⟨.passthrough, 0⟩ rfl _ (by decide) (by decide)).1

end Glip.Uart
