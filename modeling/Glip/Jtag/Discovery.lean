import Glip.Jtag.ConfigWords
import Glip.Jtag.HostRequests

/-! The scans in which the host discovers the configuration of the target and resets its
logic, and the widths of a word for which they work. -/
namespace Glip.Jtag
open Foundation
variable {W N : Nat}

def uint16Bytes (x : BitVec 16) : List Byte := [x.extractLsb' 0 8, x.extractLsb' 8 8]

def discoverReq : List Byte := [0xFFFF, 0x0000, 0x0000].flatMap uint16Bytes

def ctrlMsgLogicReset : BitVec 16 := 0x0001

def logicResetReq : List Byte := [0xFFFF, ctrlMsgLogicReset, 0x0000].flatMap uint16Bytes

/-- `1 << n` of type `int`, which is undefined from its sign bit on. -/
def shiftOne (n : Nat) : Option Nat := if n < 31 then some (2 ^ n) else none

def uint16At (bytes : List Byte) (k : Nat) : Nat := (ofBits 16 ((bytes.drop (2 * k)).flatMap bitsOf)).toNat

/-- `discover_targetconf` on the response: the width of a word in bytes and the size of the
buffer in words, unless an assertion fails. -/
def discoverTargetconf (resp : List Byte) : Option (Nat × Nat) :=
  if uint16At resp 1 ≠ 0 ∧ uint16At resp 1 % 8 = 0 then
    (shiftOne (uint16At resp 2)).map fun size => (uint16At resp 1 / 8, size)
  else none

def jtagDrscan (numWords : Nat) (f : FifoSide W) (t : Target W) (g : ScanGaps) (req : List Byte) : List Byte :=
  let captured := (toplevel numWords f).emitted (.cleared W, t) (g.scan (drscanBits req)).zipIdx
  jtagDrscanRead (openocdAnswer (bytesOf req.length captured))

def bufferSize : Nat := 64 * 1024

/-- Discovery finds the configuration, the logic reset is one pulse, and there is none in a
discovery or in a data transfer. -/
structure DiscoveryWorks (W numWords : Nat) : Prop where
  discovers : ∀ (g : ScanGaps) (f : FifoSide W) (t : Target W),
    discoverTargetconf (jtagDrscan numWords f t g discoverReq) = some (W / 8, 2 ^ numWords)
  discovery_silent : ∀ g : ScanGaps, pulses numWords (.cleared W) (g.scan (drscanBits discoverReq)) = 0
  resets : ∀ g : ScanGaps, pulses numWords (.cleared W) (g.scan (drscanBits logicResetReq)) = 1
  transfer_silent : ∀ (g : ScanGaps) (wr rd : Nat) (writeBuf req : List Byte), writeBuf.length ≤ bufferSize →
    buildJtagReq (W / 8) wr rd writeBuf = some req → pulses numWords (.cleared W) (g.scan (drscanBits req)) = 0

namespace ConfigFsm

theorem quiet_cycles (tdis : List Bool) : ∀ i ∈ tdis.map TapIn.quiet, i.shift = false ∧ i.update = false := by
  intro i hi
  obtain ⟨b, -, rfl⟩ := List.mem_map.mp hi
  exact ⟨rfl, rfl⟩

theorem lead_quiet (g : ScanGaps) :
    ∀ i ∈ g.idle.map TapIn.quiet ++ [.captureDr g.capture], i.shift = false ∧ i.update = false := by
  intro i hi
  rcases List.mem_append.mp hi with hi | hi
  · exact quiet_cycles g.idle i hi
  · rw [List.mem_singleton.mp hi]
    exact ⟨rfl, rfl⟩

/-- The cycles of the logic reset in a scan are those of its bits, if it is over then. -/
theorem pulses_scan (g : ScanGaps) {bits : List Bool}
    (hs : ((configCycles W N).after (cleared W) (bits.map .bit)).configState = .idle ∨
      ((configCycles W N).after (cleared W) (bits.map .bit)).configState = .waitForUpdate)
    (hr : ((configCycles W N).after (cleared W) (bits.map .bit)).Silent) :
    pulses N (cleared W) (g.scan bits) = pulses N (cleared W) (bits.map .bit) := by
  obtain ⟨ha, hp⟩ := idle_cycles (W := W) (N := N) (s := cleared W) rfl rfl (lead_quiet g)
  rw [ScanGaps.scan, List.append_assoc, List.append_assoc, pulses_append, pulses_silent hp, ha, Nat.zero_add, pulses_append,
    Nat.add_eq_left]
  generalize (configCycles W N).after (cleared W) (bits.map .bit) = s at hs hr ⊢
  apply pulses_silent
  rw [Transducer.along_append]
  rcases hs with hs | hs
  · obtain ⟨he, hpe⟩ := idle_cycles (N := N) hs hr (quiet_cycles g.exit)
    refine ⟨hpe, ?_⟩
    rw [he]
    exact (configCycles W N).along_cons.mpr ⟨hr, Transducer.along_nil _ _ _⟩
  · obtain ⟨-, he, hpe⟩ := wait_cycles (N := N) hs hr fun i hi => (quiet_cycles g.exit i hi).2
    exact ⟨hpe, (configCycles W N).along_cons.mpr ⟨he, Transducer.along_nil _ _ _⟩⟩

theorem bits_update (bits : List Bool) : ∀ i ∈ bits.map TapIn.bit, i.update = false := by
  intro i hi
  obtain ⟨b, -, rfl⟩ := List.mem_map.mp hi
  rfl

/-- A scan with another header than ones does not reset the logic. -/
theorem pulses_other (hW : 0 < W) (g : ScanGaps) {v : BitVec W} (hv : v ≠ BitVec.allOnes W) (rest : List Bool) :
    pulses N (cleared W) (g.scan (bitsOf v ++ rest)) = 0 := by
  obtain ⟨ha, hp⟩ := header_word (N := N) hW v
  rw [if_neg hv] at ha
  have hsplit : (bitsOf v ++ rest).map TapIn.bit = shiftWord v ++ rest.map .bit := List.map_append
  obtain ⟨hs, hr, hpr⟩ := wait_cycles (N := N) (s := ⟨.waitForUpdate, 0, v, true, false, false⟩) rfl rfl
    (bits_update rest)
  have hafter := (configCycles W N).after_append (cleared W) (shiftWord v) (rest.map .bit)
  rw [ha] at hafter
  rw [pulses_scan g]
  · apply pulses_silent
    rw [hsplit, Transducer.along_append, ha]
    exact ⟨hp, hpr⟩
  · rw [hsplit, hafter]
    exact .inr hs
  · rw [hsplit, hafter]
    exact hr

/-- Nor does one without a whole header. -/
theorem pulses_short (g : ScanGaps) {bits : List Bool} (h : bits.length < W) :
    pulses N (cleared W) (g.scan bits) = 0 := by
  have htake : (shiftWord (ofBits W bits)).take bits.length = bits.map .bit := by
    rw [shiftWord, ← List.map_take, take_bitsOf_ofBits (Nat.le_of_lt h)]
  obtain ⟨hs, hr, hp⟩ := short_scan (N := N) (v := ofBits W bits) h
  rw [htake] at hs hr hp
  rw [pulses_scan g (.inl hs) hr]
  exact pulses_silent hp

/-- With a header of ones and two more words the reset is the first bit after the header. -/
theorem pulses_discovery (hW : 2 ≤ W) (g : ScanGaps) (v u : BitVec W) (rest : List Bool) :
    pulses N (cleared W) (g.scan (bitsOf (BitVec.allOnes W) ++ (bitsOf v ++ (bitsOf u ++ rest)))) =
      if bitAt v 0 then 1 else 0 := by
  obtain ⟨ha₁, hp₁⟩ := header_word (N := N) (show 0 < W by omega) (BitVec.allOnes W)
  rw [if_pos rfl] at ha₁
  obtain ⟨ha₂, -, hcount, -⟩ := sendWordWidth_word (N := N) (r := BitVec.allOnes W) v hW
  obtain ⟨ha₃, -, hp₃⟩ := sendBufferSize_word (N := N) (r := BitVec.allOnes W) u (by omega)
  obtain ⟨hs, hr, hp₄⟩ := wait_cycles (N := N) (s := ⟨.waitForUpdate, 0, (0 : BitVec W), false, true, false⟩)
    rfl rfl (bits_update rest)
  have hsplit : (bitsOf (BitVec.allOnes W) ++ (bitsOf v ++ (bitsOf u ++ rest))).map TapIn.bit =
      shiftWord (BitVec.allOnes W) ++ (shiftWord v ++ (shiftWord u ++ rest.map .bit)) := by
    simp only [List.map_append, shiftWord]
  have hafter : (configCycles W N).after (cleared W) (shiftWord (BitVec.allOnes W) ++
      (shiftWord v ++ (shiftWord u ++ rest.map .bit))) =
        (configCycles W N).after ⟨.waitForUpdate, 0, 0, false, true, false⟩ (rest.map .bit) := by
    rw [Transducer.after_append, ha₁, Transducer.after_append, ha₂, Transducer.after_append, ha₃]
  rw [pulses_scan g]
  · rw [hsplit, pulses_append, pulses_silent hp₁, ha₁, pulses_append, hcount, ha₂, pulses_append,
      pulses_silent fun k hk => (hp₃ k hk).2, ha₃, pulses_silent hp₄, Nat.zero_add]
    rfl
  · rw [hsplit, hafter]
    exact .inr hs
  · rw [hsplit, hafter]
    exact hr

end ConfigFsm

section Response
variable {f : FifoSide W} {s : ConfigFsm W × Target W} {cs : List (TapIn × Nat)}

theorem toplevel_quiet (h : ∀ c ∈ cs, c.1.shift = false) : (toplevel N f).emitted s cs = [] := by
  induction cs generalizing s with
  | nil => rfl
  | cons c cs ih =>
    rw [Transducer.emitted_cons, ih fun d hd => h d (.tail c hd), List.append_nil]
    exact if_neg (by simp [h c (.head cs)])

theorem toplevel_length (h : ∀ c ∈ cs, c.1.shift = true) : ((toplevel N f).emitted s cs).length = cs.length := by
  induction cs generalizing s with
  | nil => rfl
  | cons c cs ih =>
    rw [Transducer.emitted_cons, List.length_append, ih fun d hd => h d (.tail c hd), List.length_cons, Nat.add_comm]
    congr 1
    exact congrArg List.length (if_pos (h c (.head cs)))

/-- While the configuration is sent `tdo` has its bits. -/
theorem toplevel_config_tdo (h : ∀ c ∈ cs, c.1.shift = true)
    (hconfig : (configCycles W N).Along (fun s => s.configDiscovery = true) s.1 (cs.map Prod.fst)) :
    (toplevel N f).emitted s cs = ((configCycles W N).emitted s.1 (cs.map Prod.fst)).map Prod.fst := by
  induction cs generalizing s with
  | nil => rfl
  | cons c cs ih =>
    obtain ⟨hc, hconfig⟩ := (configCycles W N).along_cons.mp hconfig
    have hfirst : (toplevel N f).emit s c = [(s.1.wires N c.1).tdo] := by
      simp only [toplevel, h c (.head cs), hc, if_true]
    rw [Transducer.emitted_cons, ih (s := (toplevel N f).next s c) (fun d hd => h d (.tail c hd)) hconfig, hfirst]
    rfl

end Response

private theorem forall_fst {cs : List (TapIn × Nat)} {is : List TapIn} (h : cs.map Prod.fst = is) {P : TapIn → Prop}
    (his : ∀ i ∈ is, P i) : ∀ c ∈ cs, P c.1 := by
  intro c hc
  apply his
  rw [← h]
  exact List.mem_map_of_mem hc

private theorem shiftWord_shift (v : BitVec W) : ∀ i ∈ shiftWord v, i.shift = true := by
  intro i hi
  obtain ⟨b, -, rfl⟩ := List.mem_map.mp hi
  rfl

/-- The answer to a header of ones and two more words: after a word the two of the
configuration. -/
theorem discovery_response (hW : 2 ≤ W) (f : FifoSide W) (t : Target W) (g : ScanGaps) (v u : BitVec W) :
    ∃ first, first.length = W ∧
      (toplevel N f).emitted (.cleared W, t)
          (g.scan (bitsOf (BitVec.allOnes W) ++ (bitsOf v ++ bitsOf u))).zipIdx =
        first ++ (bitsOf (BitVec.ofNat W W) ++ bitsOf (BitVec.ofNat W N)) := by
  have hcs : ((g.scan (bitsOf (BitVec.allOnes W) ++ (bitsOf v ++ bitsOf u))).zipIdx).map Prod.fst =
      (g.idle.map .quiet ++ [.captureDr g.capture]) ++ (shiftWord (BitVec.allOnes W) ++ (shiftWord v ++
        (shiftWord u ++ (g.exit.map .quiet ++ [.updateDr g.update])))) := by
    simp only [List.zipIdx_map_fst, ScanGaps.scan, List.map_append, shiftWord, List.append_assoc]
  generalize (g.scan (bitsOf (BitVec.allOnes W) ++ (bitsOf v ++ bitsOf u))).zipIdx = cs at hcs ⊢
  obtain ⟨cl, cs, rfl, hcl, hcs⟩ := List.map_eq_append_iff.mp hcs
  obtain ⟨c₁, cs, rfl, hc₁, hcs⟩ := List.map_eq_append_iff.mp hcs
  obtain ⟨c₂, cs, rfl, hc₂, hcs⟩ := List.map_eq_append_iff.mp hcs
  obtain ⟨c₃, ce, rfl, hc₃, hce⟩ := List.map_eq_append_iff.mp hcs
  have hend : ∀ i ∈ g.exit.map TapIn.quiet ++ [.updateDr g.update], i.shift = false := by
    intro i hi
    rcases List.mem_append.mp hi with hi | hi
    · exact (ConfigFsm.quiet_cycles g.exit i hi).1
    · rw [List.mem_singleton.mp hi]
      rfl
  let s₁ := (toplevel N f).after (.cleared W, t) cl
  let s₂ := (toplevel N f).after s₁ c₁
  let s₃ := (toplevel N f).after s₂ c₂
  have hs₁ : s₁.1 = .cleared W := by
    rw [toplevel_config, hcl]
    exact (ConfigFsm.idle_cycles (s := .cleared W) rfl rfl (ConfigFsm.lead_quiet g)).1
  have hs₂ : s₂.1 = ⟨.sendWordWidth, 0, BitVec.allOnes W, false, true, false⟩ := by
    rw [toplevel_config, hc₁, hs₁, (ConfigFsm.header_word (by omega) _).1, if_pos rfl]
  obtain ⟨ha₂, hwidth, -, hp₂⟩ := ConfigFsm.sendWordWidth_word (N := N) (r := BitVec.allOnes W) v hW
  have hs₃ : s₃.1 = ⟨.sendBufferSize, 0, BitVec.allOnes W, false, true, false⟩ := by
    rw [toplevel_config, hc₂, hs₂, ha₂]
  obtain ⟨-, hsize, hp₃⟩ := ConfigFsm.sendBufferSize_word (N := N) (r := BitVec.allOnes W) u (by omega)
  have htdo₂ : (toplevel N f).emitted s₂ c₂ = bitsOf (BitVec.ofNat W W) := by
    rw [toplevel_config_tdo (forall_fst hc₂ (shiftWord_shift v)), hc₂, hs₂, hwidth]
    rw [hc₂, hs₂]
    exact hp₂
  have htdo₃ : (toplevel N f).emitted s₃ c₃ = bitsOf (BitVec.ofNat W N) := by
    rw [toplevel_config_tdo (forall_fst hc₃ (shiftWord_shift u)), hc₃, hs₃, hsize]
    rw [hc₃, hs₃]
    exact fun k hk => (hp₃ k hk).1
  refine ⟨(toplevel N f).emitted s₁ c₁, ?_, ?_⟩
  · rw [toplevel_length (forall_fst hc₁ (shiftWord_shift _))]
    exact length_word hc₁
  · rw [Transducer.emitted_append, Transducer.emitted_append, Transducer.emitted_append, Transducer.emitted_append,
      toplevel_quiet (forall_fst hcl fun i hi => (ConfigFsm.lead_quiet g i hi).1), toplevel_quiet (forall_fst hce hend),
      List.nil_append, List.append_nil]
    exact congrArg _ (congrArg₂ _ htdo₂ htdo₃)

theorem discoverReq_bits : drscanBits discoverReq = bitsOf (BitVec.allOnes 16) ++ (bitsOf (0 : BitVec 16) ++ bitsOf (0 : BitVec 16)) := by
  decide

theorem logicResetReq_bits :
    drscanBits logicResetReq = bitsOf (BitVec.allOnes 16) ++ (bitsOf ctrlMsgLogicReset ++ (bitsOf (0 : BitVec 16) ++ [])) := by
  decide

/-- What the host makes of the answer of a target with words of 16 bits. -/
theorem discover_sixteen (f : FifoSide 16) (t : Target 16) (g : ScanGaps) :
    discoverTargetconf (jtagDrscan N f t g discoverReq) =
      (shiftOne (N % 2 ^ 16)).map fun size => (2, size) := by
  obtain ⟨first, hfirst, hresponse⟩ := discovery_response (N := N) (show 2 ≤ 16 by decide) f t g 0 0
  have hlen : (first ++ (bitsOf (BitVec.ofNat 16 16) ++ bitsOf (BitVec.ofNat 16 N))).length = 8 * discoverReq.length := by
    rw [List.length_append, hfirst, List.length_append, length_bitsOf, length_bitsOf]
    rfl
  rw [jtagDrscan, jtagDrscanRead_openocdAnswer, discoverReq_bits, hresponse]
  have hword (k : Nat) (x : BitVec 16) (rest : List Bool)
      (hdrop : (first ++ (bitsOf (BitVec.ofNat 16 16) ++ bitsOf (BitVec.ofNat 16 N))).drop (16 * k) = bitsOf x ++ rest) :
      uint16At (bytesOf discoverReq.length (first ++ (bitsOf (BitVec.ofNat 16 16) ++ bitsOf (BitVec.ofNat 16 N)))) k =
        x.toNat := by
    rw [uint16At, flatMap_drop, flatMap_bytesOf hlen, ← Nat.mul_assoc, hdrop, ofBits_bitsOf_append]
  have h₁ := hword 1 (BitVec.ofNat 16 16) _ (List.drop_left' hfirst)
  have h₂ := hword 2 (BitVec.ofNat 16 N) [] (by
    rw [show 16 * 2 = 16 + 16 from rfl, ← List.drop_drop, List.drop_left' hfirst, List.drop_left' (length_bitsOf _),
      List.append_nil])
  rw [discoverTargetconf, h₁, h₂, BitVec.toNat_ofNat]
  rfl

/-- A header of three bytes or more is longer than the ones of the host. -/
theorem pulses_reset_wide (hW : 24 ≤ W) (g : ScanGaps) : pulses N (.cleared W) (g.scan (drscanBits logicResetReq)) = 0 := by
  have hlen : (drscanBits logicResetReq).length = 48 := by decide
  by_cases hshort : 48 < W
  · apply ConfigFsm.pulses_short
    omega
  · have hsplit : drscanBits logicResetReq =
        bitsOf (ofBits W (drscanBits logicResetReq)) ++ (drscanBits logicResetReq).drop W := by
      rw [bitsOf_ofBits_take (by omega), List.take_append_drop]
    rw [hsplit]
    apply ConfigFsm.pulses_other (by omega)
    intro hones
    have hbit := congrArg (·.getLsbD 17) hones
    have hlow : (drscanBits logicResetReq).getD 17 false = false := by decide
    rw [getLsbD_ofBits _ (by omega), hlow, BitVec.getLsbD_allOnes, eq_comm, decide_eq_false_iff_not] at hbit
    omega

/-- A data transfer of the host is no discovery, as its buffer has not as many words. -/
theorem pulses_transfer (g : ScanGaps) {wr rd : Nat} {writeBuf req : List Byte} (hbuf : writeBuf.length ≤ bufferSize)
    (hreq : buildJtagReq 2 wr rd writeBuf = some req) : pulses N (.cleared 16) (g.scan (drscanBits req)) = 0 := by
  have hwr : wr * 2 ≤ writeBuf.length := by
    rw [buildJtagReq] at hreq
    split at hreq
    case isTrue h => exact h
    case isFalse => cases hreq
  have hbits := buildJtagReq_bits (by decide) hreq
  rw [requestBody, List.cons_append, List.flatMap_cons, List.length_map, length_wordsOf] at hbits
  rw [drscanBits_eq, hbits]
  apply ConfigFsm.pulses_other (W := 16) (by decide)
  intro hones
  have := congrArg BitVec.toNat hones
  rw [bufferSize] at hbuf
  rw [BitVec.toNat_ofNat, Nat.mod_eq_of_lt (by omega), BitVec.toNat_allOnes] at this
  omega

/-- The scans work if and only if the target has words of 16 bits and the size of its buffer is
a number of the host. -/
theorem discovery_works_iff (hbytes : 8 ∣ W) (hW : 0 < W) (numWords : Nat) :
    DiscoveryWorks W numWords ↔ W = 16 ∧ numWords ≤ 30 := by
  constructor
  · intro h
    obtain ⟨n, rfl⟩ := hbytes
    obtain rfl | rfl | hn : n = 1 ∨ n = 2 ∨ 3 ≤ n := by omega
    · -- the second byte of the header is the first of the side channel
      have hsilent := h.discovery_silent ⟨[], false, [], false⟩
      have hbits : drscanBits discoverReq = bitsOf (BitVec.allOnes 8) ++ (bitsOf (BitVec.allOnes 8) ++
          (bitsOf (0 : BitVec 8) ++ List.replicate 24 false)) := by decide
      rw [hbits, ConfigFsm.pulses_discovery (W := 8) (by decide)] at hsilent
      exact absurd hsilent (by decide)
    · have hdiscovers := h.discovers ⟨[], false, [], false⟩ ⟨fun _ => false, fun _ => false, fun _ => 0, fun _ => 0⟩
        ⟨⟨.idle, 0, 0, 0, 0, false, false⟩, ⟨.idle, 0, 0, 0, 0, 0, 0, 0, 0⟩, 0⟩
      rw [discover_sixteen (N := numWords), shiftOne] at hdiscovers
      split at hdiscovers
      case isTrue hlt =>
        have hpow : 2 ^ (numWords % 2 ^ 16) = 2 ^ numWords := congrArg Prod.snd (Option.some.inj hdiscovers)
        have := (Nat.pow_right_inj (show 1 < 2 by decide)).mp hpow
        exact ⟨rfl, by omega⟩
      case isFalse => cases hdiscovers
    · have hresets := h.resets ⟨[], false, [], false⟩
      rw [pulses_reset_wide (by omega)] at hresets
      cases hresets
  · rintro ⟨rfl, hsize⟩
    have hmod : numWords % 2 ^ 16 = numWords := Nat.mod_eq_of_lt (by omega)
    refine ⟨fun g f t => ?_, fun g => ?_, fun g => ?_, fun g wr rd writeBuf req => pulses_transfer g⟩
    · rw [discover_sixteen, hmod, shiftOne, if_pos (by omega)]
      rfl
    · have := ConfigFsm.pulses_discovery (N := numWords) (show 2 ≤ 16 by decide) g 0 0 []
      rw [List.append_nil] at this
      rw [discoverReq_bits, this]
      rfl
    · rw [logicResetReq_bits, ConfigFsm.pulses_discovery (by decide)]
      rfl

/-- A target with words of 8 bits takes the first byte of the header for the header, and the
second one for the request of a logic reset. -/
theorem discovery_resets_logic :
    pulses 3 (.cleared 8) (ScanGaps.scan ⟨[], false, [], false⟩ (drscanBits discoverReq)) = 1 ∧ ¬DiscoveryWorks 8 3 := by
  have hpulse : pulses 3 (.cleared 8) (ScanGaps.scan ⟨[], false, [], false⟩ (drscanBits discoverReq)) = 1 := by decide
  refine ⟨hpulse, fun h => ?_⟩
  have := h.discovery_silent ⟨[], false, [], false⟩
  rw [hpulse] at this
  cases this

theorem discovery_works_sixteen : DiscoveryWorks 16 3 :=
  (discovery_works_iff (by decide) (by decide) 3).mpr ⟨rfl, by decide⟩

end Glip.Jtag
